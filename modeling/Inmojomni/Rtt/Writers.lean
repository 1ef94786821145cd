import Inmojomni.Rtt.Stream

/-!
# Two contexts that log

Two contexts on the target, main code and an interrupt handler or the two cores, make calls of
their own. Every call starts by reading the write offset and ends by storing it, without a lock
in between, so overlapping calls fill the same bytes and publish the same offset: messages are
lost (`writers_overlap`).

The log stays intact in every interleaving where each store is `Undisturbed`: the other context
has stored nothing since the call read the write offset (`writers_intact`). The proof sees the
ring as a single context that has published the log would see it (`Ring`); what a call has stored
and not published yet is a matter between the call and the ring, as long as nobody else stores.
-/

open Mmio Effect
open scoped List

namespace Rtt.Writers

/-- The two contexts and the host. -/
def machine : Machine Bool Op.Answer State where
  access _ e s r s' := Ram.access e s.mem r s'.mem ∧ s'.host = s.host
  env := HostStep

/-! ### What the record says -/

/-- The accesses that the contexts have made, newest first. -/
abbrev Record := List (Event Bool Op.Answer)

/-- The bytes that context `t` has stored since it stored the write offset last. -/
def pending (t : Bool) : Record → List Byte
  | [] => []
  | ⟨u, .write8 _ v, _⟩ :: tr => if u = t then pending t tr ++ [v] else pending t tr
  | ⟨u, .write32 addr _, _⟩ :: tr => if u = t ∧ addr = upWrOff then [] else pending t tr
  | _ :: tr => pending t tr

/-- The messages accepted, each with its context: what a store of the write offset publishes are
the bytes that its context has stored. -/
def accepted : Record → List (Bool × List Byte)
  | [] => []
  | ⟨u, .write32 addr _, _⟩ :: tr =>
    if addr = upWrOff then accepted tr ++ [(u, pending u tr)] else accepted tr
  | _ :: tr => accepted tr

/-- The log: the accepted messages, one after the other. -/
def log (tr : Record) : List Byte := (accepted tr).flatMap Prod.snd

/-- The accepted messages of context `t`. -/
def mine (t : Bool) (tr : Record) : List (List Byte) :=
  ((accepted tr).filter fun p => p.1 = t).map Prod.snd

/-- The operation stores something. -/
def isStore : Op → Bool
  | .write32 .. | .write8 .. => true
  | _ => false

/-- The other context has stored nothing since context `t` read the write offset. -/
def Undisturbed (t : Bool) : Record → Prop
  | [] => True
  | ⟨u, e, _⟩ :: tr =>
    if u = t then e = .read32 upWrOff ∨ Undisturbed t tr else isStore e = false ∧ Undisturbed t tr

instance decidableUndisturbed (t : Bool) : ∀ tr : Record, Decidable (Undisturbed t tr)
  | [] => .isTrue trivial
  | ⟨u, e, _⟩ :: tr =>
    haveI := decidableUndisturbed t tr
    inferInstanceAs (Decidable (if u = t then e = .read32 upWrOff ∨ Undisturbed t tr
      else isStore e = false ∧ Undisturbed t tr))

/-- A step of a run, with the configuration before it: if it is a store, it is undisturbed. -/
def StoresAlone (e : Config Bool Op.Answer Unit (State × Record) × Label Bool) : Prop :=
  ∀ t, e.2 = .access t → ∀ op k, e.1.threads t = .op op k → isStore op = true →
    Undisturbed t e.1.shared.2

/-- The log is in the ring: the write offset is behind it, the bytes that the host has not
consumed yet stand in their places, and the host has got a prefix of it. -/
structure Intact (s : State) (log : List Byte) : Prop where
  wrOff : s.mem.read32 upWrOff = offset log.length
  room : log.length < s.host.consumed.length + size
  holds : Cyclic.Holds (cells s.mem) size s.host.consumed.length log
  copied : s.host.consumed ++ s.host.taken <+: log

/-! ### The ring, as a single context sees it -/

/-- A record goes on with the stores of some bytes. -/
def stored (tr : Rtt.Record) (vs : List Byte) : Rtt.Record :=
  vs.foldl (fun tr v => ⟨(), .write8 0 v, ()⟩ :: tr) tr

/-- The record of one context alone that has published `pub` and stored `pend` since. -/
def serial (pub pend : List Byte) : Rtt.Record :=
  stored (⟨(), .write32 upWrOff 0, ()⟩ :: stored [] pub) pend

/-- The ring holds `pub`, published, and `pend` behind it. -/
def Ring (s : State) (pub pend : List Byte) : Prop := Inv s (serial pub pend)

section Ring

theorem unpublished_stored (tr : Rtt.Record) (vs : List Byte) :
    unpublished (stored tr vs) = unpublished tr ++ vs := by
  induction vs generalizing tr with
  | nil => exact (List.append_nil _).symm
  | cons v vs ih =>
    refine (ih _).trans ?_
    change unpublished tr ++ [v] ++ vs = _
    rw [List.append_assoc, List.singleton_append]

theorem accepted_stored (tr : Rtt.Record) (vs : List Byte) :
    Rtt.accepted (stored tr vs) = Rtt.accepted tr := by
  induction vs generalizing tr with
  | nil => rfl
  | cons v vs ih => exact ih _

theorem published_serial (pub pend : List Byte) : published (serial pub pend) = pub := by
  have hacc : Rtt.accepted (serial pub pend)
      = Rtt.accepted (stored [] pub) ++ [unpublished (stored [] pub)] := accepted_stored _ _
  rw [published, hacc, accepted_stored, unpublished_stored]
  exact List.append_nil _

theorem unpublished_serial (pub pend : List Byte) : unpublished (serial pub pend) = pend :=
  unpublished_stored _ _

variable {s s' : State} {pub pend : List Byte}

/-- Of a record, the invariant looks at the bytes published and the bytes not published yet. -/
theorem inv_congr {tr tr' : Rtt.Record} (hp : published tr = published tr')
    (hu : unpublished tr = unpublished tr') (h : Inv s tr) : Inv s tr' := by
  refine ⟨?_, h.rdOff, ?_, ?_, ?_, ?_⟩
  · rw [← hp]
    exact h.wrOff
  · rw [← hp]
    exact h.limit
  · rw [← hp, ← hu]
    exact h.room
  · rw [← hp, ← hu]
    exact h.holds
  · rw [← hp]
    exact h.copied

theorem Ring.hostStep (h : Ring s pub pend) (hs : HostStep s s') : Ring s' pub pend :=
  Inv.hostStep h hs

theorem Ring.intact (h : Ring s pub pend) : Intact s pub := by
  have hw := Inv.wrOff h
  have hlt := Inv.published_lt h
  have hcopied := Inv.copied h
  rw [published_serial] at hw hlt hcopied
  refine ⟨hw, hlt, fun j hj hjlt => ?_, hcopied⟩
  have hcell := Inv.holds h j hj (by rw [published_serial, List.length_append]; omega)
  simp only [published_serial, List.getElem_append_left hjlt] at hcell
  exact hcell

/-- What is not published yet can be forgotten. -/
theorem Ring.forget (h : Ring s pub pend) : Ring s pub [] := by
  have hw := Inv.wrOff h
  have hlimit := Inv.limit h
  have hlt := Inv.published_lt h
  have hcopied := Inv.copied h
  rw [published_serial] at hw hlimit hlt hcopied
  refine ⟨?_, Inv.rdOff h, ?_, ?_, ?_, ?_⟩
  · rwa [published_serial]
  · rwa [published_serial]
  · rwa [published_serial, unpublished_serial, List.append_nil]
  · rw [published_serial, unpublished_serial, List.append_nil]
    exact h.intact.holds
  · rwa [published_serial]

/-- A byte goes behind the ones stored so far. -/
theorem Ring.put (h : Ring s pub pend) (v : Byte)
    (hroom : pub.length + pend.length + 1 < s.host.consumed.length + size) :
    Ring ⟨s.mem.write8 (buf + offset (pub.length + pend.length)) v, s.host⟩ pub (pend ++ [v]) ∧
      ¬ Unread s.mem (buf + offset (pub.length + pend.length)) := by
  have hlen : (published (serial pub pend) ++ unpublished (serial pub pend)).length
      = pub.length + pend.length := by
    rw [published_serial, unpublished_serial, List.length_append]
  have hput := Inv.put h v (by rwa [hlen])
  have hnot := Inv.not_unread h (by rwa [hlen])
  rw [hlen] at hput hnot
  refine ⟨inv_congr ?_ ?_ hput, hnot⟩
  · rw [published_serial]
    exact published_serial pub pend
  · rw [unpublished_serial]
    exact congrArg (· ++ [v]) (unpublished_serial pub pend)

/-- What is stored becomes published. -/
theorem Ring.publish (h : Ring s pub pend) :
    Ring ⟨s.mem.write32 upWrOff (offset (pub.length + pend.length)), s.host⟩ (pub ++ pend) [] := by
  have hlen : (published (serial pub pend) ++ unpublished (serial pub pend)).length
      = pub.length + pend.length := by
    rw [published_serial, unpublished_serial, List.length_append]
  have hpub := Inv.publish h
  rw [hlen] at hpub
  refine inv_congr ?_ ?_ hpub
  · rw [published_serial]
    change (Rtt.accepted (serial pub pend) ++ [unpublished (serial pub pend)]).flatten = _
    rw [List.flatten_append, List.flatten_singleton, unpublished_serial]
    exact congrArg (· ++ pend) (published_serial pub pend)
  · rw [unpublished_serial]
    rfl

end Ring

/-! ### A step of the record -/

section Record

variable {t u : Bool} {tr : Record}

/-- A read changes nothing in what has been stored. -/
theorem record_read (tr : Record) (e : Op) (r : e.Answer) (h : isStore e = false) :
    pending t (⟨u, e, r⟩ :: tr) = pending t tr ∧ accepted (⟨u, e, r⟩ :: tr) = accepted tr := by
  cases e with
  | write32 | write8 => cases h
  | _ => exact ⟨rfl, rfl⟩

theorem pending_write8 (addr : Word) (v : Byte) :
    pending t (⟨t, .write8 addr v, ()⟩ :: tr) = pending t tr ++ [v] := if_pos rfl

theorem pending_publish (v : Word) : pending t (⟨t, .write32 upWrOff v, ()⟩ :: tr) = [] :=
  if_pos ⟨rfl, rfl⟩

theorem accepted_publish (v : Word) :
    accepted (⟨u, .write32 upWrOff v, ()⟩ :: tr) = accepted tr ++ [(u, pending u tr)] := if_pos rfl

/-- The accesses of the other context change neither the bytes nor the messages of this one. -/
theorem record_other (hne : u ≠ t) (tr : Record) (e : Op) (r : e.Answer) :
    pending t (⟨u, e, r⟩ :: tr) = pending t tr ∧ mine t (⟨u, e, r⟩ :: tr) = mine t tr := by
  cases e with
  | write32 addr v =>
    refine ⟨if_neg fun h => hne h.1, ?_⟩
    rw [mine, mine]
    change List.map _ (List.filter _ (if _ then _ else _)) = _
    split
    · rw [List.filter_append, List.filter_singleton]
      simp [hne]
    · rfl
  | write8 addr v => exact ⟨if_neg hne, rfl⟩
  | _ => exact ⟨rfl, rfl⟩

theorem undisturbed_own (e : Op) (r : e.Answer) :
    Undisturbed t (⟨t, e, r⟩ :: tr) ↔ e = .read32 upWrOff ∨ Undisturbed t tr := by
  rw [Undisturbed, if_pos rfl]

theorem undisturbed_other (hne : u ≠ t) (e : Op) (r : e.Answer) :
    Undisturbed t (⟨u, e, r⟩ :: tr) ↔ isStore e = false ∧ Undisturbed t tr := by
  rw [Undisturbed, if_neg hne]

end Record

/-! ### The protocol -/

/-- The machine whose stores are undisturbed. -/
def exclusive : Machine Bool Op.Answer (State × Record) where
  access t e s r s' := machine.recorded.access t e s r s' ∧ (isStore e = true → Undisturbed t s.2)
  env := machine.recorded.env

/-- Everybody keeps the log in the ring. Where a context finds itself undisturbed, the others have
only read, and the host has only made room. A context stores into no unread byte, and publishes
messages of its own calls. -/
def protocol (calls : Bool → List Call) : Protocol exclusive where
  rely t s s' := (Ring s.1 (log s.2) [] → Ring s'.1 (log s'.2) []) ∧
    pending t s'.2 = pending t s.2 ∧ mine t s'.2 = mine t s.2 ∧
    (Undisturbed t s'.2 → Undisturbed t s.2 ∧ log s'.2 = log s.2 ∧
      s.1.host.consumed.length ≤ s'.1.host.consumed.length ∧
      ∀ pub pend, Ring s.1 pub pend → Ring s'.1 pub pend)
  guar t e s _ s' := Ring s'.1 (log s'.2) [] ∧ (∀ addr, Ram.Stores addr e → ¬ Unread s.1.mem addr) ∧
    (mine t s.2 <+ (calls t).map Call.message → mine t s'.2 <+ (calls t).map Call.message)
  guar_rely := by
    rintro t u e ⟨s, tr⟩ ⟨s', tr'⟩ r hne ⟨⟨⟨ha, hhost⟩, htr⟩, -⟩ hg
    dsimp only at ha hhost htr
    subst htr
    obtain ⟨hpend, hmine⟩ := record_other hne tr e r
    refine ⟨fun _ => hg.1, hpend, hmine, fun hun => ?_⟩
    obtain ⟨hread, hun⟩ := (undisturbed_other hne e r).mp hun
    -- the other context has only read
    have hmem : s'.mem = s.mem := by
      cases e with
      | write32 | write8 => cases hread
      | read32 | read8 => exact ha.2
      | external => exact ha
    have hs : s' = s := by
      obtain ⟨mem, host⟩ := s
      obtain ⟨mem', host'⟩ := s'
      obtain rfl : mem' = mem := hmem
      obtain rfl : host' = host := hhost
      rfl
    refine ⟨hun, ?_, ?_, fun pub pend h => ?_⟩
    · rw [log, (record_read tr e r hread (t := t)).2, log]
    · rw [hs]
    · rwa [hs]
  env_rely := by
    rintro t ⟨s, tr⟩ ⟨s', tr'⟩ ⟨hs, rfl⟩
    exact ⟨fun h => h.hostStep hs, rfl, rfl,
      fun hun => ⟨hun, rfl, hs.consumed_le, fun _ _ h => h.hostStep hs⟩⟩

/-- Where a context stands: the messages accepted from it, and the bytes stored since. -/
structure At (t : Bool) (msgs : List (List Byte)) (pend : List Byte) (s : State × Record) : Prop where
  ring : Ring s.1 (log s.2) []
  mine_eq : mine t s.2 = msgs
  pending_eq : pending t s.2 = pend

/-- A call under way, from the position `base` on, that has seen room for `n` bytes. -/
structure Open (t : Bool) (msgs : List (List Byte)) (pend : List Byte) (base n : ℕ)
    (s : State × Record) : Prop extends At t msgs pend s where
  alone : Undisturbed t s.2 → (log s.2).length = base ∧ Ring s.1 (log s.2) pend ∧
    base + n < s.1.host.consumed.length + size

section Target

variable {calls : Bool → List Call} {t : Bool} {msgs : List (List Byte)} {pend : List Byte}
  {base n : ℕ}

theorem At.stable : Stable (protocol calls) t (At t msgs pend) := by
  rintro ⟨s, tr⟩ ⟨s', tr'⟩ ⟨hring, hpend, hmine, -⟩ h
  exact ⟨hring h.ring, hmine.trans h.mine_eq, hpend.trans h.pending_eq⟩

theorem Open.stable : Stable (protocol calls) t (Open t msgs pend base n) := by
  rintro ⟨s, tr⟩ ⟨s', tr'⟩ hrely h
  refine ⟨At.stable _ _ hrely h.toAt, fun hun => ?_⟩
  obtain ⟨hun, hlog, hle, hring⟩ := hrely.2.2.2 hun
  obtain ⟨hlen, hr, hroom⟩ := h.alone hun
  dsimp only at hlog hle hring hlen hr hroom ⊢
  rw [hlog]
  exact ⟨hlen, hring _ _ hr, by omega⟩

/-- A read of the target keeps to the protocol. -/
theorem guar_read (calls : Bool → List Call) {s : State × Record} {e : Op} (r : e.Answer)
    (hread : isStore e = false) (h : At t msgs pend s) :
    (protocol calls).guar t e s r (s.1, ⟨t, e, r⟩ :: s.2) ∧
      At t msgs pend (s.1, ⟨t, e, r⟩ :: s.2) := by
  obtain ⟨hpend, hacc⟩ := record_read (t := t) (u := t) s.2 e r hread
  have hlog : log (⟨t, e, r⟩ :: s.2) = log s.2 := by rw [log, hacc, log]
  have hmine : mine t (⟨t, e, r⟩ :: s.2) = mine t s.2 := by rw [mine, hacc, mine]
  have hring : Ring s.1 (log (⟨t, e, r⟩ :: s.2)) [] := by
    rw [hlog]
    exact h.ring
  refine ⟨⟨hring, fun addr hst => ?_, fun hsub => by rwa [hmine]⟩, hring, hmine.trans h.mine_eq,
    hpend.trans h.pending_eq⟩
  cases e with
  | write32 | write8 => cases hread
  | _ => exact hst.elim

theorem put_spec (b : Byte) (hn : pend.length + 1 ≤ n) :
    Triple (protocol calls) t (Open t msgs pend base n) (put (offset (base + pend.length)) b)
      fun wr s => wr = offset (base + (pend ++ [b]).length) ∧ Open t msgs (pend ++ [b]) base n s := by
  refine Triple.op (e := Op.write8 (buf + offset (base + pend.length)) b)
    (K := fun _ => Open t msgs (pend ++ [b]) base n) Open.stable ?_ fun _ => ?_
  · rintro ⟨s, tr⟩ r ⟨⟨mem, host⟩, tr'⟩ h ⟨⟨⟨ha, rfl⟩, rfl⟩, halone⟩
    obtain rfl := ha
    obtain ⟨hlen, hring, hroom⟩ := h.alone (halone rfl)
    dsimp only at hlen hring hroom
    subst hlen
    obtain ⟨hring', hnot⟩ := hring.put b (by omega)
    refine ⟨⟨hring'.forget, ?_, fun hsub => hsub⟩, ⟨hring'.forget, h.mine_eq, ?_⟩,
      fun _ => ⟨rfl, hring', hroom⟩⟩
    · rintro addr rfl
      exact hnot
    · exact (pending_write8 _ _).trans (congrArg (· ++ [b]) h.pending_eq)
  · refine Triple.ret Open.stable fun s h => ⟨?_, h⟩
    rw [next_offset, List.length_append, List.length_singleton, Nat.add_assoc]

/-- `putAll` stores the bytes one by one. -/
theorem putAll_spec : ∀ (bs pend : List Byte), pend.length + bs.length ≤ n →
    Triple (protocol calls) t (Open t msgs pend base n) (putAll (offset (base + pend.length)) bs)
      fun wr s => wr = offset (base + (pend ++ bs).length) ∧ Open t msgs (pend ++ bs) base n s
  | [], pend, _ => by
    rw [List.append_nil]
    exact .ret Open.stable fun s h => ⟨rfl, h⟩
  | b :: bs, pend, hn => by
    rw [List.length_cons] at hn
    refine (put_spec b (by omega)).bind fun wr => Triple.assume fun hwr => ?_
    subst hwr
    have ih := putAll_spec bs (pend ++ [b]) (by simp; omega)
    rwa [List.append_assoc] at ih

/-- What `room` answers is there, as long as the call is undisturbed. -/
theorem room_spec : Triple (protocol calls) t (Open t msgs [] base 0) (room (offset base))
    fun r => Open t msgs [] base r.toNat := by
  refine Triple.op (e := Op.read32 upRdOff)
    (K := fun (rd : Word) => Open t msgs [] base (if rd > offset base
      then rd - offset base - 1 else bufSize - 1 - offset base + rd).toNat) Open.stable ?_ fun _ =>
    .ret Open.stable fun _ h => h
  rintro ⟨s, tr⟩ rd ⟨⟨mem, host⟩, tr'⟩ h ⟨⟨⟨⟨hrd, hm⟩, rfl⟩, rfl⟩, -⟩
  obtain rfl : mem = s.mem := hm
  obtain ⟨hguar, hat⟩ := guar_read calls (e := .read32 upRdOff) rd rfl h.toAt
  refine ⟨hguar, hat, fun hun => ?_⟩
  obtain ⟨hlen, hring, -⟩ := h.alone (((undisturbed_own _ _).mp hun).resolve_left (by decide))
  dsimp only at hlen hring
  subst hlen
  refine ⟨rfl, hring, ?_⟩
  have hle := Inv.consumed_le hring
  have hlt := Inv.published_lt hring
  rw [published_serial] at hle hlt
  obtain rfl : rd = offset s.host.consumed.length := hrd.trans (Inv.rdOff hring)
  rw [toNat_room hle hlt]
  change _ < s.host.consumed.length + size
  omega

/-- A call that is undisturbed appends its message, or drops it. -/
theorem append_spec {msg : List Byte} (hlen : msg.length < 2 ^ 31)
    (hsub : msgs ++ [msg] <+ (calls t).map Call.message) :
    Triple (protocol calls) t (At t msgs []) (append (BitVec.ofNat 32 msg.length) msg)
      fun _ s => ∃ msgs', (msgs' = msgs ∨ msgs' = msgs ++ [msg]) ∧ At t msgs' [] s := by
  have hpost : Stable (protocol calls) t fun s => ∃ msgs', (msgs' = msgs ∨ msgs' = msgs ++ [msg]) ∧
      At t msgs' [] s := by
    rintro s s' hr ⟨msgs', hor, h⟩
    exact ⟨msgs', hor, At.stable s s' hr h⟩
  have hcount : (BitVec.ofNat 32 msg.length).toNat = msg.length := by
    rw [BitVec.toNat_ofNat, Nat.mod_eq_of_lt (by omega)]
  refine Triple.op (e := Op.read32 upWrOff)
    (K := fun (wr : Word) s => ∃ base, wr = offset base ∧ Open t msgs [] base 0 s) At.stable ?_
    fun wr => Triple.exists fun base => Triple.assume fun hwr => ?_
  · rintro s wr ⟨⟨mem, host⟩, tr'⟩ h ⟨⟨⟨⟨hwr, hm⟩, rfl⟩, rfl⟩, -⟩
    obtain rfl : mem = s.1.mem := hm
    obtain ⟨hguar, hat⟩ := guar_read calls (e := .read32 upWrOff) wr rfl h
    have hwrOff := Inv.wrOff h.ring
    have hlt := Inv.published_lt h.ring
    rw [published_serial] at hwrOff hlt
    -- whoever has published it, the offset is behind the log
    exact ⟨hguar, (log s.2).length, hwr.trans hwrOff, hat, fun _ => ⟨rfl, h.ring, hlt⟩⟩
  subst hwr
  refine room_spec.bind fun r => ?_
  change Triple (protocol calls) t _ (if BitVec.ofNat 32 msg.length > r then _ else _) _
  split
  case isTrue hgt => exact Triple.ret Open.stable fun s h => ⟨msgs, .inl rfl, h.toAt⟩
  case isFalse hle =>
    have hfits : msg.length ≤ r.toNat := by
      rw [gt_iff_lt, BitVec.lt_def, hcount] at hle
      omega
    have hput : Triple (protocol calls) t (Open t msgs [] base r.toNat)
        (putAll (offset (base + ([] : List Byte).length)) msg) _ :=
      putAll_spec msg [] (by simpa using hfits)
    rw [List.nil_append] at hput
    refine hput.bind fun wr => Triple.assume fun hwr => ?_
    subst hwr
    refine Triple.call Open.stable (fun _ => hpost) ?_
    rintro ⟨s, tr⟩ r ⟨⟨mem, host⟩, tr'⟩ h ⟨⟨⟨ha, rfl⟩, rfl⟩, halone⟩
    obtain rfl := ha
    obtain ⟨hbase, hring, -⟩ := h.alone (halone rfl)
    dsimp only at hbase hring
    subst hbase
    have hacc : accepted (⟨t, .write32 upWrOff (offset ((log tr).length + msg.length)), ()⟩ :: tr)
        = accepted tr ++ [(t, msg)] :=
      (accepted_publish _).trans (congrArg (fun p => accepted tr ++ [(t, p)]) h.pending_eq)
    have hlog : log (⟨t, .write32 upWrOff (offset ((log tr).length + msg.length)), ()⟩ :: tr)
        = log tr ++ msg := by
      rw [log, hacc, List.flatMap_append, List.flatMap_singleton, log]
    have hmine : mine t (⟨t, .write32 upWrOff (offset ((log tr).length + msg.length)), ()⟩ :: tr)
        = msgs ++ [msg] := by
      rw [mine, hacc, List.filter_append, List.map_append, ← mine, h.mine_eq]
      simp
    have hnext := hring.publish
    rw [← hlog] at hnext
    exact ⟨⟨hnext, fun addr hst => wrOff_not_unread hst, fun _ => hmine ▸ hsub⟩, msgs ++ [msg],
      .inr rfl, hnext, hmine, pending_publish _⟩

/-- The calls of a context, one after the other. -/
theorem calls_spec : Triple (protocol calls) t (At t [] []) (Prog.forEach Call.run (calls t))
    fun _ s => ∃ msgs, msgs <+ (calls t).map Call.message ∧ At t msgs [] s :=
  calls_of_append (A := fun msgs => At t msgs []) (fun _ => At.stable)
    fun _ _ hlen hsub => append_spec hlen hsub

end Target

/-! ### Every run -/

/-- The runs whose stores are undisturbed are those of the exclusive machine. -/
theorem reach_exclusive {c₀ c : Config Bool Op.Answer Unit (State × Record)} :
    exclusive.Reach c₀ c ↔ ∃ ls, machine.recorded.Run c₀ ls c ∧ ∀ e ∈ ls, StoresAlone e := by
  constructor
  · rintro ⟨ls, h⟩
    induction h with
    | nil => exact ⟨[], .nil, fun _ he => absurd he List.not_mem_nil⟩
    | @snoc ls c c' l h hs ih =>
      obtain ⟨ls, hrun, halone⟩ := ih
      suffices hstep : machine.recorded.Step c l c' ∧ StoresAlone (c, l) by
        refine ⟨ls ++ [(c, l)], hrun.snoc hstep.1, fun e he => ?_⟩
        rcases List.mem_append.mp he with he | he
        · exact halone e he
        · rw [List.mem_singleton.mp he]
          exact hstep.2
      cases hs with
      | access ht ha =>
        refine ⟨.access ht ha.1, ?_⟩
        rintro _ ⟨⟩ op k hop hstore
        cases ht.symm.trans hop
        exact ha.2 hstore
      | unfold ht => exact ⟨.unfold ht, fun _ h => nomatch h⟩
      | env he => exact ⟨.env he, fun _ h => nomatch h⟩
  · rintro ⟨ls, h, halone⟩
    induction h with
    | nil => exact .refl _
    | @snoc ls c c' l h hs ih =>
      have hlast := halone _ (List.mem_append_right _ (List.mem_singleton_self _))
      refine (ih fun e he => halone e (List.mem_append_left _ he)).step (l := l) ?_
      cases hs with
      | access ht ha => exact .access ht ⟨ha, fun hstore => hlast _ rfl _ _ ht hstore⟩
      | unfold ht => exact .unfold ht
      | env he => exact .env he

/-- **Calls that leave each other alone keep the log intact.** After `init`, in every
interleaving of the calls of two contexts and the host in which each store is undisturbed: the
ring holds the accepted messages, one after the other, these are for each context messages of its
calls in their order, each one whole, and no store goes into a byte that the host has still to
read. -/
theorem writers_intact (calls : Bool → List Call) {m m₀ : Ram}
    (hinit : Exec Ram.access init m () m₀)
    {ls : List (Config Bool Op.Answer Unit (State × Record) × Label Bool)}
    {c : Config Bool Op.Answer Unit (State × Record)}
    (hrun : machine.recorded.Run
      ⟨(⟨m₀, .idle⟩, []), fun t => Prog.forEach Call.run (calls t)⟩ ls c)
    (halone : ∀ e ∈ ls, StoresAlone e) :
    Intact c.shared.1 (log c.shared.2) ∧
    (∀ t, mine t c.shared.2 <+ (calls t).map Call.message) ∧
    ∀ t addr e k, c.threads t = .op e k → Undisturbed t c.shared.2 → Ram.Stores addr e →
      ¬ Unread c.shared.1.mem addr := by
  have hc := reach_exclusive.mpr ⟨ls, hrun, halone⟩
  rw [exec_init] at hinit
  subst hinit
  obtain ⟨hwr, hrd⟩ := initialised_offsets m
  have hroom : 0 < 0 + size := by decide
  have hstart : Ring ⟨initialised m, .idle⟩ [] [] :=
    ⟨hwr, hrd, ⟨0, rfl, Nat.le_refl _, Nat.le_refl _⟩, hroom, Cyclic.Holds.empty _ _ _,
      List.prefix_refl _⟩
  have hat : ∀ t, At t [] [] (⟨initialised m, .idle⟩, []) := fun _ => ⟨hstart, rfl, rfl⟩
  have hcalls : ∀ t, Triple (protocol calls) t (At t [] []) (Prog.forEach Call.run (calls t))
      fun _ s => ∃ msgs, msgs <+ (calls t).map Call.message ∧ At t msgs [] s := fun _ => calls_spec
  have hsub₀ : ∀ t, mine t [] <+ (calls t).map Call.message := fun _ => List.nil_sublist _
  have hkeep : ∀ (t : Bool) (e : Op) (s : State × Record) (r : e.Answer) (s' : State × Record),
      exclusive.access t e s r s' → (protocol calls).guar t e s r s' →
      (Ring s.1 (log s.2) [] ∧ ∀ u, mine u s.2 <+ (calls u).map Call.message) →
      Ring s'.1 (log s'.2) [] ∧ ∀ u, mine u s'.2 <+ (calls u).map Call.message := by
    rintro t e ⟨s, tr⟩ r ⟨s', tr'⟩ ⟨⟨-, htr⟩, -⟩ hg ⟨-, hsub⟩
    dsimp only at htr
    subst htr
    refine ⟨hg.1, fun u => ?_⟩
    by_cases hut : u = t
    · subst hut
      exact hg.2.2 (hsub u)
    · rw [(record_other (Ne.symm hut) tr e r).2]
      exact hsub u
  obtain ⟨hring, hsub⟩ := (protocol calls).invariant
    (I := fun s => Ring s.1 (log s.2) [] ∧ ∀ t, mine t s.2 <+ (calls t).map Call.message) hcalls hat
    ⟨hstart, hsub₀⟩ hkeep (fun s s' hs h => ⟨hs.2 ▸ h.1.hostStep hs.1, hs.2 ▸ h.2⟩) hc
  refine ⟨hring.intact, hsub, fun t addr e k hk hun hst => ?_⟩
  -- the store can be made, so the guarantee says something about it
  obtain ⟨r, m', ha⟩ := Ram.exists_access_of_stores hst c.shared.1.mem
  have hsafe := (protocol calls).sound hcalls hat hc t
  have hnext : exclusive.access t e c.shared r
      (⟨m', c.shared.1.host⟩, ⟨t, e, r⟩ :: c.shared.2) := ⟨⟨⟨ha, rfl⟩, rfl⟩, fun _ => hun⟩
  exact (Safe.guarantee hsafe hk hnext).2.1 addr hst

/-! ### Schedules -/

/-- The answer of memory, with the record kept. -/
def answer (t : Bool) (e : Op) (s : State × Record) : Option (e.Answer × (State × Record)) :=
  Machine.recordedAnswer (fun _ e s => (Ram.answer e s.mem).map fun p => (p.1, ⟨p.2, s.host⟩)) t e s

/-- The answer to an access that disturbs nobody. -/
def answerAlone (t : Bool) (e : Op) (s : State × Record) : Option (e.Answer × (State × Record)) :=
  if isStore e = true → Undisturbed t s.2 then answer t e s else none

/-- The move of the host, with the record kept. -/
def hostMove (i : HostMove) (s : State × Record) : Option (State × Record) :=
  (s.1.move i).map fun s' => (s', s.2)

theorem access_of_answer (t : Bool) (e : Op) (s : State × Record)
    (p : e.Answer × (State × Record)) (h : answer t e s = some p) :
    machine.recorded.access t e s p.1 p.2 := by
  refine Machine.recorded_access_of_answer ?_ t e s p h
  rintro t e s p hp
  obtain ⟨q, hq, rfl⟩ := Option.map_eq_some_iff.mp hp
  exact ⟨Ram.access_of_answer hq, rfl⟩

theorem env_of_hostMove (i : HostMove) (s s' : State × Record) (h : hostMove i s = some s') :
    machine.recorded.env s s' := by
  obtain ⟨q, hq, rfl⟩ := Option.map_eq_some_iff.mp h
  exact ⟨⟨i, hq⟩, rfl⟩

/-- A schedule whose stores are undisturbed is a run of that kind. -/
theorem run_of_play {c c' : Config Bool Op.Answer Unit (State × Record)}
    (cs : List (Machine.Choice Bool HostMove))
    (h : Machine.play answerAlone hostMove c cs = some c') :
    ∃ ls, machine.recorded.Run c ls c' ∧ ∀ e ∈ ls, StoresAlone e := by
  refine reach_exclusive.mp (Machine.Reach.of_play (M := exclusive) ?_ env_of_hostMove cs h)
  intro t e s p hp
  obtain ⟨halone, hp⟩ := Option.ite_none_right_eq_some.mp hp
  exact ⟨access_of_answer t e s p hp, halone⟩

/-- The second context looks at the write offset when the first one has published its message. -/
theorem writers_intact_oneEach : ∃ (ls : List (Config Bool Op.Answer Unit (State × Record) ×
      Label Bool)) (c : Config Bool Op.Answer Unit (State × Record)),
    Exec Ram.access init (fun _ => 0) () (initialised fun _ => 0) ∧
    machine.recorded.Run ⟨(⟨initialised fun _ => 0, .idle⟩, []), fun t => Prog.forEach Call.run
      [Call.write ⟨ascii [if t then 'b' else 'a'], by simp [ascii]⟩]⟩ ls c ∧
    (∀ e ∈ ls, StoresAlone e) ∧
    log c.shared.2 = ascii ['a', 'b'] ∧ Intact c.shared.1 (log c.shared.2) := by
  obtain ⟨ls, hrun, halone⟩ := run_of_play (c := ⟨(⟨initialised fun _ => 0, .idle⟩, []),
    fun t => Prog.forEach Call.run [Call.write ⟨ascii [if t then 'b' else 'a'], by simp [ascii]⟩]⟩)
    (List.replicate 4 (.thread false) ++ [.env .look] ++ List.replicate 4 (.thread true)) rfl
  have hinit : Exec Ram.access init (fun _ => 0) () (initialised fun _ => 0) := exec_init.mpr rfl
  exact ⟨ls, _, hinit, hrun, halone, rfl, (writers_intact _ hinit hrun halone).1⟩

/-- Two calls that overlap: both contexts look at the write offset, and then each one stores its
byte and publishes. Both messages are accepted, and only the second one is in the ring. -/
theorem writers_overlap : ∃ c : Config Bool Op.Answer Unit (State × Record),
    Exec Ram.access init (fun _ => 0) () (initialised fun _ => 0) ∧
    machine.recorded.Reach ⟨(⟨initialised fun _ => 0, .idle⟩, []), fun t =>
      Prog.forEach Call.run [Call.write ⟨ascii [if t then 'b' else 'a'], by simp [ascii]⟩]⟩ c ∧
    (∀ t, c.threads t = .ret ()) ∧
    accepted c.shared.2 = [(false, ascii ['a']), (true, ascii ['b'])] ∧
    c.shared.1.host.consumed = [] ∧ c.shared.1.mem.read32 upWrOff = 1 ∧
    cells c.shared.1.mem 0 = 98 ∧ ¬ Intact c.shared.1 (log c.shared.2) := by
  have hc := Machine.Reach.of_play access_of_answer env_of_hostMove
    (c := ⟨(⟨initialised fun _ => 0, .idle⟩, []), fun t => Prog.forEach Call.run
      [Call.write ⟨ascii [if t then 'b' else 'a'], by simp [ascii]⟩]⟩)
    [.thread false, .thread false, .thread true, .thread true, .thread false, .thread false,
      .thread true, .thread true] rfl
  refine ⟨_, exec_init.mpr rfl, hc, ?_, rfl, rfl, rfl, rfl, fun h => ?_⟩
  · intro t
    cases t <;> rfl
  · -- the write offset is behind one byte, the log has two
    have hwr := h.wrOff
    exact absurd hwr (by decide)

end Rtt.Writers
