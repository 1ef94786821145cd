import Inmojomni.Cyclic
import Inmojomni.Effect.History
import Inmojomni.Effect.RelyGuarantee
import Inmojomni.Rtt

/-!
# The host reads a stream of whole messages

A host may look at the write offset, copy a byte, or store a read offset between any two
accesses of the target (`HostStep`). The statement is `stream_integrity`: what the host has
copied is at every moment a prefix of the accepted messages, and these are messages of the calls
made, in order and each one whole.

Which messages have been accepted is read off the record of the target's accesses: a store of
the write offset publishes the bytes stored since the one before. The invariant `Inv` looks at
the ring as the window of an unbounded stream, the accepted messages and the bytes not
published yet, from the host's position on. The target keeps it with each access, the host
with each step; what the target needs from the host is only that it never takes room back.
-/

open Mmio Effect
open scoped List

namespace Rtt

/-! ### The host -/

/-- A host that reads the channel over the debug probe: the write offset it has read last, the
bytes it has copied from the read offset on, and the bytes it has consumed for good. -/
structure Host where
  limit : Word
  taken : List Byte
  consumed : List Byte

/-- Memory, and what the host has in hand. -/
structure State where
  mem : Ram
  host : Host

/-- The number of bytes in the ring. -/
def size : ℕ := bufSize.toNat

/-- The offset of a position in the stream. -/
def offset (n : ℕ) : Word := BitVec.ofNat 32 (n % size)

/-- The byte at an offset of the ring. -/
def cells (m : Ram) (i : ℕ) : Byte := m (buf + BitVec.ofNat 32 i)

/-- `n` bytes on from the read offset, cyclically. -/
def State.behind (s : State) (n : ℕ) : Word := offset ((s.mem.read32 upRdOff).toNat + n)

/-- What a host does between two accesses of the target. -/
inductive HostMove
  /-- Read the write offset. -/
  | look
  /-- Copy the next byte, up to the write offset read last. -/
  | copy
  /-- Store the read offset that is `k` copied bytes further. -/
  | store (k : ℕ)
  /-- Drop what is copied, and start again from the read offset. -/
  | rewind

/-- The state after a move, where the move is possible. -/
def State.move (s : State) : HostMove → Option State
  | .look => some { s with host := { s.host with limit := s.mem.read32 upWrOff } }
  | .copy =>
    if s.behind s.host.taken.length = s.host.limit then none
    else some { s with host := { s.host with
      taken := s.host.taken ++ [s.mem (buf + s.behind s.host.taken.length)] } }
  | .store k =>
    if k ≤ s.host.taken.length then
      some ⟨s.mem.write32 upRdOff (s.behind k),
        ⟨s.host.limit, s.host.taken.drop k, s.host.consumed ++ s.host.taken.take k⟩⟩
    else none
  | .rewind => some { s with host := { s.host with taken := [] } }

/-- The host makes some move. -/
def HostStep (s s' : State) : Prop := ∃ i, s.move i = some s'

theorem hostStep_iff {s s' : State} : HostStep s s' ↔
    s' = { s with host := { s.host with limit := s.mem.read32 upWrOff } } ∨
    (s.behind s.host.taken.length ≠ s.host.limit ∧ s' = { s with host := { s.host with
      taken := s.host.taken ++ [s.mem (buf + s.behind s.host.taken.length)] } }) ∨
    (∃ k ≤ s.host.taken.length, s' = ⟨s.mem.write32 upRdOff (s.behind k),
      ⟨s.host.limit, s.host.taken.drop k, s.host.consumed ++ s.host.taken.take k⟩⟩) ∨
    s' = { s with host := { s.host with taken := [] } } := by
  constructor
  · rintro ⟨i, hi⟩
    cases i with
    | look => exact .inl (Option.some.inj hi).symm
    | copy =>
      obtain ⟨hne, heq⟩ := Option.ite_none_left_eq_some.mp hi
      exact .inr (.inl ⟨hne, (Option.some.inj heq).symm⟩)
    | store k =>
      obtain ⟨hk, heq⟩ := Option.ite_none_right_eq_some.mp hi
      exact .inr (.inr (.inl ⟨k, hk, (Option.some.inj heq).symm⟩))
    | rewind => exact .inr (.inr (.inr (Option.some.inj hi).symm))
  · rintro (rfl | ⟨hne, rfl⟩ | ⟨k, hk, rfl⟩ | rfl)
    · exact ⟨.look, rfl⟩
    · exact ⟨.copy, if_neg hne⟩
    · exact ⟨.store k, if_pos hk⟩
    · exact ⟨.rewind, rfl⟩

/-- The target and the host. -/
def machine : Machine Unit Op.Answer State where
  access _ e s r s' := Ram.access e s.mem r s'.mem ∧ s'.host = s.host
  env := HostStep

/-! ### What the record says -/

/-- The accesses that the target has made, newest first. -/
abbrev Record := List (Event Unit Op.Answer)

/-- The bytes stored since the write offset was stored last. -/
def unpublished : Record → List Byte
  | [] => []
  | ⟨_, .write8 _ v, _⟩ :: tr => unpublished tr ++ [v]
  | ⟨_, .write32 addr _, _⟩ :: tr => if addr = upWrOff then [] else unpublished tr
  | _ :: tr => unpublished tr

/-- The messages accepted: what each store of the write offset has published. -/
def accepted : Record → List (List Byte)
  | [] => []
  | ⟨_, .write32 addr _, _⟩ :: tr =>
    if addr = upWrOff then accepted tr ++ [unpublished tr] else accepted tr
  | _ :: tr => accepted tr

/-- The bytes published. -/
def published (tr : Record) : List Byte := (accepted tr).flatten

/-- The bytes of the ring between the read offset and the published write offset. -/
def Unread (m : Ram) (addr : Word) : Prop :=
  ∃ i < ((m.read32 upWrOff).toNat + size - (m.read32 upRdOff).toNat) % size,
    addr = buf + offset ((m.read32 upRdOff).toNat + i)

/-! ### Offsets and addresses -/

theorem size_eq : size = 1024 := rfl

theorem toNat_offset (n : ℕ) : (offset n).toNat = n % size := by
  rw [offset, BitVec.toNat_ofNat, size_eq]
  omega

theorem offset_add (n k : ℕ) : offset ((offset n).toNat + k) = offset (n + k) := by
  rw [toNat_offset, offset, offset, Nat.mod_add_mod]

theorem offset_ne {i j : ℕ} (hlt : i < j) (hcap : j < i + size) : offset i ≠ offset j := by
  intro heq
  refine Cyclic.mod_ne_mod hlt hcap ?_
  rw [← toNat_offset, ← toNat_offset, heq]

/-- `put` advances the offset. -/
theorem next_offset (n : ℕ) :
    (if offset n + 1 = bufSize then 0 else offset n + 1) = offset (n + 1) := by
  have hlt : n % size < size := Nat.mod_lt _ (by decide)
  have hnat : (offset n + 1).toNat = n % size + 1 := by
    rw [BitVec.toNat_add, toNat_offset, size_eq] at *
    exact Nat.mod_eq_of_lt (by simp; omega)
  have hiff : offset n + 1 = bufSize ↔ n % size + 1 = size := by
    rw [← hnat]
    exact ⟨congrArg BitVec.toNat, fun h => BitVec.eq_of_toNat_eq h⟩
  refine BitVec.eq_of_toNat_eq ?_
  rw [toNat_offset, ← Cyclic.next_mod (by decide), apply_ite BitVec.toNat, hnat]
  simp only [hiff]
  rfl

/-- What `room` computes from the two offsets. -/
theorem toNat_room {lo hi : ℕ} (hle : lo ≤ hi) (hcap : hi < lo + size) :
    (if offset lo > offset hi then offset lo - offset hi - 1
      else bufSize - 1 - offset hi + offset lo).toNat = size - 1 - (hi - lo) := by
  have hlo : lo % size < size := Nat.mod_lt _ (by decide)
  have hhi : hi % size < size := Nat.mod_lt _ (by decide)
  have hiff : offset lo > offset hi ↔ hi % size < lo % size := by
    rw [gt_iff_lt, BitVec.lt_def, toNat_offset, toNat_offset]
  have hone : BitVec.toNat (1 : Word) = 1 := rfl
  have hsize : bufSize.toNat = 1024 := rfl
  rw [← Cyclic.room_mod hle hcap, apply_ite BitVec.toNat]
  simp only [hiff, BitVec.toNat_add, BitVec.toNat_sub, toNat_offset, hone, hsize]
  rw [size_eq] at *
  split <;> omega

/-- The ring lies behind the control block. -/
theorem buf_apart {i : ℕ} (hi : i < size) : 4 ≤ (buf + BitVec.ofNat 32 i - upWrOff).toNat ∧
    4 ≤ (buf + BitVec.ofNat 32 i - upRdOff).toNat := by
  rw [size_eq] at hi
  simp only [buf, upWrOff, upRdOff, rttBase]
  constructor <;> bv_omega

theorem offset_apart (n : ℕ) : 4 ≤ (buf + offset n - upWrOff).toNat ∧
    4 ≤ (buf + offset n - upRdOff).toNat := buf_apart (Nat.mod_lt _ (by decide))

/-- The write offset is no part of the ring. -/
theorem wrOff_not_unread {m : Ram} {addr : Word} (h : (addr - upWrOff).toNat < 4) :
    ¬ Unread m addr := by
  rintro ⟨i, -, rfl⟩
  have hapart := (offset_apart ((m.read32 upRdOff).toNat + i)).1
  omega

theorem cells_write8 (m : Ram) (n : ℕ) (v : Byte) {i : ℕ} (hi : i < size) :
    cells (m.write8 (buf + offset n) v) i = Function.update (cells m) (n % size) v i := by
  rcases eq_or_ne i (n % size) with rfl | hne
  · rw [Function.update_self]
    exact Function.update_self _ _ _
  · rw [Function.update_of_ne hne]
    refine Function.update_of_ne (fun heq => hne ?_) _ _
    have heq' : BitVec.ofNat 32 i = offset n := (BitVec.add_right_inj _).mp heq
    rw [← toNat_offset, ← heq', BitVec.toNat_ofNat, Nat.mod_eq_of_lt]
    rw [size_eq] at hi
    omega

/-! ### The invariant -/

/-- The ring is a window of the stream of published and unpublished bytes. -/
structure Inv (s : State) (tr : Record) : Prop where
  wrOff : s.mem.read32 upWrOff = offset (published tr).length
  rdOff : s.mem.read32 upRdOff = offset s.host.consumed.length
  /-- The host copies up to a position that has been published. -/
  limit : ∃ l, s.host.limit = offset l ∧
    s.host.consumed.length + s.host.taken.length ≤ l ∧ l ≤ (published tr).length
  /-- One byte of the ring is kept free. -/
  room : (published tr ++ unpublished tr).length < s.host.consumed.length + size
  holds : Cyclic.Holds (cells s.mem) size s.host.consumed.length
    (published tr ++ unpublished tr)
  copied : s.host.consumed ++ s.host.taken <+: published tr

namespace Inv

variable {s : State} {tr : Record}

theorem consumed_le (h : Inv s tr) : s.host.consumed.length ≤ (published tr).length := by
  obtain ⟨l, -, hlo, hhi⟩ := h.limit
  exact (Nat.le_add_right _ _).trans (hlo.trans hhi)

theorem published_lt (h : Inv s tr) :
    (published tr).length < s.host.consumed.length + size := by
  have hroom := h.room
  rw [List.length_append] at hroom
  omega

theorem behind_eq (h : Inv s tr) (n : ℕ) :
    s.behind n = offset (s.host.consumed.length + n) := by
  rw [State.behind, h.rdOff, offset_add]

/-! A step of the host, by its kind. -/

/-- The byte that the host copies is the next one of the stream. -/
theorem copy (h : Inv s tr) (hne : s.behind s.host.taken.length ≠ s.host.limit) :
    Inv { s with host := { s.host with
      taken := s.host.taken ++ [s.mem (buf + s.behind s.host.taken.length)] } } tr := by
  obtain ⟨l, hl, hlo, hhi⟩ := h.limit
  set n := s.host.consumed.length + s.host.taken.length with hn
  -- the host is not at its limit yet, so the byte is published
  have hlt : n < l := by
    refine hlo.lt_of_ne fun heq => hne ?_
    rw [h.behind_eq, hl, ← hn, heq]
  have hpub : n < (published tr).length := hlt.trans_le hhi
  have hbyte : s.mem (buf + s.behind s.host.taken.length) = (published tr)[n] := by
    have hcell := h.holds n (Nat.le_add_right _ _) (by rw [List.length_append]; omega)
    rw [List.getElem_append_left hpub] at hcell
    rw [h.behind_eq, ← hcell]
    rfl
  refine ⟨h.wrOff, h.rdOff, ⟨l, hl, ?_, hhi⟩, h.room, h.holds, ?_⟩
  · simp only [List.length_append, List.length_singleton]
    omega
  · have htake : s.host.consumed ++ s.host.taken = (published tr).take n := by
      rw [List.prefix_iff_eq_take.mp h.copied, List.length_append]
    rw [hbyte, ← List.append_assoc, htake, List.take_concat_get' _ _ hpub]
    exact List.take_prefix _ _

/-- Storing a read offset moves bytes from the ones copied to the ones consumed. -/
theorem store (h : Inv s tr) {k : ℕ} (hk : k ≤ s.host.taken.length) :
    Inv ⟨s.mem.write32 upRdOff (s.behind k),
      ⟨s.host.limit, s.host.taken.drop k, s.host.consumed ++ s.host.taken.take k⟩⟩ tr := by
  obtain ⟨l, hl, hlo, hhi⟩ := h.limit
  have hlen : (s.host.consumed ++ s.host.taken.take k).length = s.host.consumed.length + k := by
    rw [List.length_append, List.length_take, Nat.min_eq_left hk]
  refine ⟨?_, ?_, ⟨l, hl, ?_, hhi⟩, ?_, ?_, ?_⟩
  · exact (Ram.read32_write32_of_apart (by decide)).trans h.wrOff
  · rw [hlen, ← h.behind_eq]
    exact Ram.read32_write32
  · simp only [hlen, List.length_drop]
    omega
  · simp only [hlen]
    exact h.room.trans_le (by omega)
  · simp only [hlen]
    refine (h.holds.mono (Nat.le_add_right _ k)).congr (by decide) fun i hi => ?_
    exact Ram.write32_of_le (buf_apart hi).2
  · rw [List.append_assoc, List.take_append_drop]
    exact h.copied

/-- **The host keeps the invariant.** -/
theorem hostStep (h : Inv s tr) {s' : State} (hs : HostStep s s') : Inv s' tr := by
  rcases hostStep_iff.mp hs with rfl | ⟨hne, rfl⟩ | ⟨k, hk, rfl⟩ | rfl
  · refine ⟨h.wrOff, h.rdOff, ⟨_, h.wrOff, ?_, Nat.le_refl _⟩, h.room, h.holds, h.copied⟩
    have hle := h.copied.length_le
    rwa [List.length_append] at hle
  · exact h.copy hne
  · exact h.store hk
  · obtain ⟨l, hl, hlo, hhi⟩ := h.limit
    refine ⟨h.wrOff, h.rdOff, ⟨l, hl, (Nat.le_add_right _ _).trans hlo, hhi⟩, h.room, h.holds, ?_⟩
    rw [List.append_nil]
    exact (List.prefix_append _ _).trans h.copied

/-! An access of the target, by its kind. -/

theorem read (h : Inv s tr) (addr r : Word) : Inv s (⟨(), .read32 addr, r⟩ :: tr) :=
  ⟨h.wrOff, h.rdOff, h.limit, h.room, h.holds, h.copied⟩

/-- A byte goes behind the stream. -/
theorem put (h : Inv s tr) (v : Byte)
    (hroom : (published tr ++ unpublished tr).length + 1 < s.host.consumed.length + size) :
    Inv ⟨s.mem.write8 (buf + offset (published tr ++ unpublished tr).length) v, s.host⟩
      (⟨(), .write8 (buf + offset (published tr ++ unpublished tr).length) v, ()⟩ :: tr) := by
  have hapart := offset_apart (published tr ++ unpublished tr).length
  refine ⟨?_, ?_, h.limit, ?_, ?_, h.copied⟩
  · exact (Ram.read32_write8 hapart.1).trans h.wrOff
  · exact (Ram.read32_write8 hapart.2).trans h.rdOff
  · change (published tr ++ (unpublished tr ++ [v])).length < _
    rwa [← List.append_assoc, List.length_append, List.length_singleton]
  · change Cyclic.Holds _ size _ (published tr ++ (unpublished tr ++ [v]))
    rw [← List.append_assoc]
    refine (h.holds.append (by omega) v).congr (by decide) fun i hi => ?_
    exact cells_write8 _ _ _ hi

/-- The byte is none that the host has still to read. -/
theorem not_unread (h : Inv s tr)
    (hroom : (published tr ++ unpublished tr).length + 1 < s.host.consumed.length + size) :
    ¬ Unread s.mem (buf + offset (published tr ++ unpublished tr).length) := by
  rintro ⟨i, hi, heq⟩
  rw [h.wrOff, h.rdOff, toNat_offset, toNat_offset,
    Cyclic.distance_mod h.consumed_le h.published_lt] at hi
  have hoff := (BitVec.add_right_inj _).mp heq
  rw [h.rdOff, offset_add] at hoff
  rw [List.length_append] at hoff hroom
  exact offset_ne (by omega) (by omega) hoff.symm

/-- The unpublished bytes become a message. -/
theorem publish (h : Inv s tr) :
    Inv ⟨s.mem.write32 upWrOff (offset (published tr ++ unpublished tr).length), s.host⟩
      (⟨(), .write32 upWrOff (offset (published tr ++ unpublished tr).length), ()⟩ :: tr) := by
  obtain ⟨l, hl, hlo, hhi⟩ := h.limit
  have hpub : published (⟨(), .write32 upWrOff
      (offset (published tr ++ unpublished tr).length), ()⟩ :: tr)
      = published tr ++ unpublished tr := by
    simp [published, accepted]
  have hun : unpublished (⟨(), .write32 upWrOff
      (offset (published tr ++ unpublished tr).length), ()⟩ :: tr) = [] := by
    simp [unpublished]
  refine ⟨?_, ?_, ⟨l, hl, hlo, ?_⟩, ?_, ?_, ?_⟩
  · rw [hpub]
    exact Ram.read32_write32
  · exact (Ram.read32_write32_of_apart (by decide)).trans h.rdOff
  · rw [hpub, List.length_append]
    omega
  · rw [hpub, hun, List.append_nil]
    exact h.room
  · rw [hpub, hun, List.append_nil]
    exact h.holds.congr (by decide) fun i hi => Ram.write32_of_le (buf_apart hi).1
  · rw [hpub]
    exact h.copied.trans (List.prefix_append _ _)

end Inv

/-! ### The target -/

theorem HostStep.consumed_le {s s' : State} (h : HostStep s s') :
    s.host.consumed.length ≤ s'.host.consumed.length := by
  rcases hostStep_iff.mp h with rfl | ⟨hne, rfl⟩ | ⟨k, hk, rfl⟩ | rfl
  · exact Nat.le_refl _
  · exact Nat.le_refl _
  · exact (List.prefix_append _ _).length_le
  · exact Nat.le_refl _

/-- The host keeps the invariant and makes room; the target keeps it too, stores into no unread
byte, and lets only messages of the calls through. -/
def protocol (calls : List Call) : Protocol machine.recorded where
  rely _ s s' := (Inv s.1 s.2 → Inv s'.1 s'.2) ∧ s'.2 = s.2 ∧
    s.1.host.consumed.length ≤ s'.1.host.consumed.length
  guar _ e s _ s' := Inv s'.1 s'.2 ∧ (∀ addr, Ram.Stores addr e → ¬ Unread s.1.mem addr) ∧
    (accepted s.2 <+ calls.map Call.message → accepted s'.2 <+ calls.map Call.message)
  guar_rely h := absurd rfl h
  env_rely := by
    rintro _ ⟨s, tr⟩ ⟨s', tr'⟩ ⟨hs, rfl⟩
    exact ⟨fun h => h.hostStep hs, rfl, hs.consumed_le⟩

/-- Where the target stands: the messages accepted so far, the bytes stored of the next one,
and for how many bytes of it there is room. -/
structure At (msgs : List (List Byte)) (pending : List Byte) (n : ℕ) (s : State × Record) :
    Prop where
  inv : Inv s.1 s.2
  accepted_eq : accepted s.2 = msgs
  unpublished_eq : unpublished s.2 = pending
  room : msgs.flatten.length + n < s.1.host.consumed.length + size

section Target

variable {calls : List Call} {msgs : List (List Byte)} {pending : List Byte} {n : ℕ}

/-- Room that has been seen stays. -/
theorem At.stable : Stable (protocol calls) () (At msgs pending n) := by
  rintro ⟨s, tr⟩ ⟨s', tr'⟩ ⟨hinv, rfl, hle⟩ h
  exact ⟨hinv h.inv, h.accepted_eq, h.unpublished_eq, h.room.trans_le (by simpa using hle)⟩

/-- The stream of the invariant, where the target stands. -/
theorem At.stream_eq {s : State} {tr : Record} (h : At msgs pending n (s, tr)) :
    published tr ++ unpublished tr = msgs.flatten ++ pending := by
  rw [published, h.accepted_eq, h.unpublished_eq]

theorem put_spec (b : Byte) (hn : pending.length + 1 ≤ n) :
    Triple (protocol calls) () (At msgs pending n) (put (offset (msgs.flatten ++ pending).length) b)
      fun wr s => wr = offset (msgs.flatten ++ (pending ++ [b])).length ∧
        At msgs (pending ++ [b]) n s := by
  refine Triple.op (e := Op.write8 (buf + offset (msgs.flatten ++ pending).length) b)
    (K := fun _ => At msgs (pending ++ [b]) n) At.stable ?_ fun _ => ?_
  · rintro ⟨s, tr⟩ r ⟨⟨mem, host⟩, tr'⟩ h ⟨⟨ha, rfl⟩, rfl⟩
    obtain rfl := ha
    have hroom : (published tr ++ unpublished tr).length + 1 < s.host.consumed.length + size := by
      have hlt := h.room
      rw [h.stream_eq, List.length_append]
      dsimp only at hlt
      omega
    rw [← h.stream_eq]
    refine ⟨⟨h.inv.put b hroom, ?_⟩, h.inv.put b hroom, h.accepted_eq, ?_, h.room⟩
    · refine ⟨?_, fun hsub => hsub⟩
      rintro addr rfl
      exact h.inv.not_unread hroom
    · change unpublished tr ++ [b] = _
      rw [h.unpublished_eq]
  · refine Triple.ret At.stable fun s h => ⟨?_, h⟩
    rw [next_offset]
    simp only [List.length_append, List.length_singleton, Nat.add_assoc]

/-- `putAll` stores the bytes one by one. -/
theorem putAll_spec : ∀ (bs pending : List Byte), pending.length + bs.length ≤ n →
    Triple (protocol calls) () (At msgs pending n)
      (putAll (offset (msgs.flatten ++ pending).length) bs)
      fun wr s => wr = offset (msgs.flatten ++ (pending ++ bs)).length ∧
        At msgs (pending ++ bs) n s
  | [], pending, _ => by
    rw [List.append_nil]
    exact .ret At.stable fun s h => ⟨rfl, h⟩
  | b :: bs, pending, hn => by
    rw [List.length_cons] at hn
    refine (put_spec b (by omega)).bind fun wr => Triple.assume fun hwr => ?_
    subst hwr
    have ih := putAll_spec bs (pending ++ [b]) (by simp; omega)
    rwa [List.append_assoc] at ih

/-- What `room` answers is there, whatever the host does after it has been computed. -/
theorem room_spec : Triple (protocol calls) () (At msgs [] 0) (room (offset msgs.flatten.length))
    fun r => At msgs [] r.toNat := by
  refine Triple.op (e := Op.read32 upRdOff)
    (K := fun (rd : Word) => At msgs [] (if rd > offset msgs.flatten.length
      then rd - offset msgs.flatten.length - 1
      else bufSize - 1 - offset msgs.flatten.length + rd).toNat) At.stable ?_ fun _ =>
    .ret At.stable fun _ h => h
  rintro ⟨s, tr⟩ rd ⟨⟨mem, host⟩, tr'⟩ h ⟨⟨⟨hrd, hm⟩, rfl⟩, rfl⟩
  obtain rfl : mem = s.mem := hm
  refine ⟨⟨h.inv.read _ _, fun _ hst => hst.elim, fun hsub => hsub⟩, h.inv.read _ _, h.accepted_eq,
    h.unpublished_eq, ?_⟩
  have hinv : Inv s tr := h.inv
  have hpub : (published tr).length = msgs.flatten.length := by rw [published, h.accepted_eq]
  have hle := hinv.consumed_le
  have hlt := hinv.published_lt
  rw [hpub] at hle hlt
  obtain rfl : rd = offset s.host.consumed.length := hrd.trans hinv.rdOff
  rw [toNat_room hle hlt]
  change _ < s.host.consumed.length + size
  omega

/-- **A message is accepted whole or dropped whole.** -/
theorem append_spec {msg : List Byte} (hlen : msg.length < 2 ^ 31)
    (hsub : msgs ++ [msg] <+ calls.map Call.message) :
    Triple (protocol calls) () (At msgs [] 0) (append (BitVec.ofNat 32 msg.length) msg)
      fun _ s => ∃ msgs', (msgs' = msgs ∨ msgs' = msgs ++ [msg]) ∧ At msgs' [] 0 s := by
  have hpost : Stable (protocol calls) () fun s => ∃ msgs', (msgs' = msgs ∨ msgs' = msgs ++ [msg]) ∧
      At msgs' [] 0 s := by
    rintro s s' hr ⟨msgs', hor, h⟩
    exact ⟨msgs', hor, At.stable s s' hr h⟩
  have hcount : (BitVec.ofNat 32 msg.length).toNat = msg.length := by
    rw [BitVec.toNat_ofNat, Nat.mod_eq_of_lt (by omega)]
  refine Triple.op (e := Op.read32 upWrOff)
    (K := fun (wr : Word) s => wr = offset msgs.flatten.length ∧ At msgs [] 0 s) At.stable ?_
    fun wr => Triple.assume fun hwr => ?_
  · rintro ⟨s, tr⟩ wr ⟨⟨mem, host⟩, tr'⟩ h ⟨⟨⟨hwr, hm⟩, rfl⟩, rfl⟩
    obtain rfl : mem = s.mem := hm
    refine ⟨⟨h.inv.read _ _, fun _ hst => hst.elim, fun hsub => hsub⟩, ?_, h.inv.read _ _,
      h.accepted_eq, h.unpublished_eq, h.room⟩
    refine hwr.trans (h.inv.wrOff.trans ?_)
    rw [published, h.accepted_eq]
  subst hwr
  refine room_spec.bind fun r => ?_
  change Triple (protocol calls) () _ (if BitVec.ofNat 32 msg.length > r then _ else _) _
  split
  case isTrue hgt =>
    refine Triple.ret At.stable fun s h => ⟨msgs, .inl rfl, h.inv, h.accepted_eq,
      h.unpublished_eq, ?_⟩
    exact (Nat.le_add_right _ r.toNat).trans_lt h.room
  case isFalse hle =>
    have hfits : msg.length ≤ r.toNat := by
      rw [gt_iff_lt, BitVec.lt_def, hcount] at hle
      omega
    have hput : Triple (protocol calls) () (At msgs [] r.toNat)
        (putAll (offset (msgs.flatten ++ []).length) msg) _ :=
      putAll_spec msg [] (by simpa using hfits)
    rw [List.append_nil, List.nil_append] at hput
    refine hput.bind fun wr => Triple.assume fun hwr => ?_
    subst hwr
    refine Triple.call At.stable (fun _ => hpost) ?_
    rintro ⟨s, tr⟩ r ⟨⟨mem, host⟩, tr'⟩ h ⟨⟨ha, rfl⟩, rfl⟩
    obtain rfl := ha
    rw [← h.stream_eq]
    have hinv := h.inv.publish
    have hacc : accepted (⟨(), .write32 upWrOff
        (offset (published tr ++ unpublished tr).length), ()⟩ :: tr) = msgs ++ [msg] := by
      simp [accepted, h.accepted_eq, h.unpublished_eq]
    refine ⟨⟨hinv, fun addr hst => wrOff_not_unread hst, fun _ => hacc ▸ hsub⟩, msgs ++ [msg],
      .inr rfl, hinv, hacc, by simp [unpublished], ?_⟩
    have hlt := h.room
    rw [List.flatten_append, List.flatten_singleton, List.length_append]
    change _ < s.host.consumed.length + size at hlt
    change _ < s.host.consumed.length + size
    omega

end Target

/-- What appending a message does, whoever the others are, the calls do one after the other. -/
theorem calls_of_append {T σ : Type} {M : Machine T Op.Answer σ} {Γ : Protocol M} {t : T}
    {A : List (List Byte) → σ → Prop} {calls : List Call} (hst : ∀ msgs, Stable Γ t (A msgs))
    (happend : ∀ msgs msg, msg.length < 2 ^ 31 → msgs ++ [msg] <+ calls.map Call.message →
      Triple Γ t (A msgs) (append (BitVec.ofNat 32 msg.length) msg)
        fun _ s => ∃ msgs', (msgs' = msgs ∨ msgs' = msgs ++ [msg]) ∧ A msgs' s) :
    Triple Γ t (A []) (Prog.forEach Call.run calls)
      fun _ s => ∃ msgs, msgs <+ calls.map Call.message ∧ A msgs s := by
  have hstable : ∀ done : List Call, Stable Γ t fun s => ∃ msgs,
      msgs <+ done.map Call.message ∧ A msgs s := by
    rintro done s s' hr ⟨msgs, hsub, h⟩
    exact ⟨msgs, hsub, hst msgs s s' hr h⟩
  refine Triple.pre (Triple.forEach (I := fun done s => ∃ msgs, msgs <+ done.map Call.message ∧
    A msgs s) (hstable calls) ?_) fun s h => ⟨[], List.Sublist.refl _, h⟩
  rintro done x rest rfl
  refine Triple.exists fun msgs => Triple.assume fun hsub => ?_
  obtain ⟨hrun, hlen⟩ := x.run_eq
  have hnext : msgs ++ [x.message] <+ (done ++ [x]).map Call.message := by
    rw [List.map_append]
    exact hsub.append (List.Sublist.refl _)
  have hall : (done ++ [x]).map Call.message <+ (done ++ x :: rest).map Call.message := by
    rw [List.append_cons done x rest]
    exact (List.sublist_append_left _ _).map _
  rw [hrun]
  refine (happend msgs x.message hlen (hnext.trans hall)).post fun _ s h => ?_
  obtain ⟨msgs', rfl | rfl, h⟩ := h
  · exact ⟨msgs', hsub.trans (by simp), h⟩
  · exact ⟨_, hnext, h⟩

/-- The calls, one after the other. -/
theorem calls_spec {calls : List Call} :
    Triple (protocol calls) () (At [] [] 0) (Prog.forEach Call.run calls)
      fun _ s => ∃ msgs, msgs <+ calls.map Call.message ∧ At msgs [] 0 s :=
  calls_of_append (A := fun msgs => At msgs [] 0) (fun _ => At.stable)
    fun _ _ hlen hsub => append_spec hlen hsub

/-! ### Every run -/

/-- The host before it has looked: `init` leaves it nothing to copy. -/
def Host.idle : Host := ⟨0, [], []⟩

/-- What `init` makes of memory. -/
def initialised (m : Ram) : Ram :=
  [(maxUp, 1), (maxDown, 0), (upName, 0), (upBuf, buf), (upSize, bufSize), (upWrOff, 0),
    (upRdOff, 0), (upFlags, 0), (rttBase + 12, 0), (rttBase + 8, 0x00005454),
    (rttBase + 4, 0x52205245), (rttBase + 0, 0x47474553)].foldl
      (fun m w => m.write32 w.1 w.2) m

theorem exec_init {m m₀ : Ram} {r : Unit} :
    Exec Ram.access init m r m₀ ↔ m₀ = initialised m := by
  simp only [init, Mmio.bind_eq, exec_bind, Ram.exec_write32, exists_const, exists_eq_left,
    initialised, List.foldl_cons, List.foldl_nil]

/-- After `init` both offsets are zero: nothing stored later overlaps them. -/
theorem initialised_offsets (m : Ram) :
    (initialised m).read32 upWrOff = 0 ∧ (initialised m).read32 upRdOff = 0 := by
  simp only [initialised, List.foldl_cons, List.foldl_nil]
  constructor <;>
    simp (disch := decide) only [Ram.read32_write32_of_apart, Ram.read32_write32]

/-- **The stream is intact.** After `init`, in every interleaving of any sequence of calls with
the host: the write offset stays in the ring, the target never stores into a byte that the host
has still to read, and what the host has consumed and copied is a prefix of the accepted
messages, which are messages of the calls in their order, each one whole. -/
theorem stream_integrity (calls : List Call) {m m₀ : Ram} (hinit : Exec Ram.access init m () m₀)
    {c : Config Unit Op.Answer Unit (State × Record)}
    (hc : machine.recorded.Reach ⟨(⟨m₀, .idle⟩, []), fun _ => Prog.forEach Call.run calls⟩ c) :
    c.shared.1.mem.read32 upWrOff < bufSize ∧
    (∀ addr e k, c.threads () = .op e k → Ram.Stores addr e → ¬ Unread c.shared.1.mem addr) ∧
    c.shared.1.host.consumed ++ c.shared.1.host.taken <+: (accepted c.shared.2).flatten ∧
    accepted c.shared.2 <+ calls.map Call.message := by
  rw [exec_init] at hinit
  subst hinit
  obtain ⟨hwr, hrd⟩ := initialised_offsets m
  have hroom : 0 < 0 + size := by decide
  have hstart : Inv ⟨initialised m, .idle⟩ [] :=
    ⟨hwr, hrd, ⟨0, rfl, Nat.le_refl _, Nat.le_refl _⟩, hroom, Cyclic.Holds.empty _ _ _,
      List.prefix_refl _⟩
  have hat : ∀ t : Unit, At [] [] 0 (⟨initialised m, .idle⟩, []) := fun _ => ⟨hstart, rfl, rfl, hroom⟩
  have hcalls : ∀ t : Unit, Triple (protocol calls) t (At [] [] 0) (Prog.forEach Call.run calls)
      fun _ s => ∃ msgs, msgs <+ calls.map Call.message ∧ At msgs [] 0 s := fun _ => calls_spec
  have hsub₀ : accepted [] <+ calls.map Call.message := List.nil_sublist _
  obtain ⟨hinv, hsub⟩ := (protocol calls).invariant
    (I := fun s => Inv s.1 s.2 ∧ accepted s.2 <+ calls.map Call.message) hcalls hat
    ⟨hstart, hsub₀⟩ (fun _ _ _ _ _ _ hg h => ⟨hg.1, hg.2.2 h.2⟩)
    (fun s s' hs h => ⟨hs.2 ▸ h.1.hostStep hs.1, hs.2 ▸ h.2⟩) hc
  refine ⟨?_, fun addr e k hk hst => ?_, hinv.copied, hsub⟩
  · rw [hinv.wrOff, BitVec.lt_def, toNat_offset]
    exact Nat.mod_lt _ (by decide)
  · -- the store can be made, so the guarantee says something about it
    obtain ⟨r, m', ha⟩ := Ram.exists_access_of_stores hst c.shared.1.mem
    have hsafe := (protocol calls).sound hcalls hat hc ()
    have hnext : machine.recorded.access () e c.shared r
        (⟨m', c.shared.1.host⟩, ⟨(), e, r⟩ :: c.shared.2) := ⟨⟨ha, rfl⟩, rfl⟩
    exact (Safe.guarantee hsafe hk hnext).2.1 addr hst

/-- A schedule of the target and the host is a run. -/
theorem reach_of_play {c c' : Config Unit Op.Answer Unit (State × Record)}
    (cs : List (Machine.Choice Unit HostMove))
    (h : Machine.play (Machine.recordedAnswer fun _ e s =>
        (Ram.answer e s.mem).map fun p => (p.1, ⟨p.2, s.host⟩))
      (fun i s => (s.1.move i).map fun s' => (s', s.2)) c cs = some c') :
    machine.recorded.Reach c c' := by
  refine Machine.Reach.of_play (Machine.recorded_access_of_answer ?_) ?_ cs h
  · rintro t e s p hp
    obtain ⟨q, hq, rfl⟩ := Option.map_eq_some_iff.mp hp
    exact ⟨Ram.access_of_answer hq, rfl⟩
  · rintro i s s' hs
    obtain ⟨q, hq, rfl⟩ := Option.map_eq_some_iff.mp hs
    exact ⟨⟨i, hq⟩, rfl⟩

/-- The host takes a message while the second one is under way. -/
theorem stream_integrity_twoCalls : ∃ c : Config Unit Op.Answer Unit (State × Record),
    Exec Ram.access init (fun _ => 0) () (initialised fun _ => 0) ∧
    machine.recorded.Reach ⟨(⟨initialised fun _ => 0, .idle⟩, []), fun _ => Prog.forEach Call.run
      [Call.write ⟨ascii ['o', 'k'], by decide⟩, Call.writeHex 7]⟩ c ∧
    c.shared.1.host.consumed = ascii ['o', 'k'] ∧
    c.shared.1.mem.read32 upWrOff < bufSize ∧
    (∀ addr e k, c.threads () = .op e k → Ram.Stores addr e → ¬ Unread c.shared.1.mem addr) ∧
    c.shared.1.host.consumed ++ c.shared.1.host.taken <+: (accepted c.shared.2).flatten ∧
    accepted c.shared.2 <+
      [Call.write ⟨ascii ['o', 'k'], by decide⟩, Call.writeHex 7].map Call.message := by
  have hc := reach_of_play (c := ⟨(⟨initialised fun _ => 0, .idle⟩, []), fun _ => Prog.forEach Call.run
    [Call.write ⟨ascii ['o', 'k'], by decide⟩, Call.writeHex 7]⟩)
    (List.replicate 5 (.thread ()) ++ [.env .look, .env .copy, .thread (), .env .copy,
      .thread (), .thread (), .env (.store 2)]) rfl
  have hinit : Exec Ram.access init (fun _ => 0) () (initialised fun _ => 0) := exec_init.mpr rfl
  exact ⟨_, hinit, hc, rfl, stream_integrity _ hinit hc⟩

end Rtt
