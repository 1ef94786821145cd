import Inmojomni.Pio.Asm
import Mathlib.Data.List.Basic

/-!
# The fixup table

A program is assembled by a `Session` of calls on one `Asm`. What the calls mean is said by a
`Listing`: the emitted instructions with their jump operands, and where every handle was
placed last. In the listing a `bind` simply settles the jumps that wait for it; the assembler
gets the same effect out of four pieces of state that have to agree (`Asm.Shows`): the code
words, the fixup table, the address table and the counter of pending jumps.

`Session.Good.step` shows that every admitted call keeps the session on its listing, and
`Session.Good.run` that a sequence of admitted calls is defined and ends on the listing of the
calls.
-/

namespace Pio

/-! ### Assembly sessions -/

/-- A call on an `Asm`. -/
inductive Call
  | sideSet (count : ℤ) (optional pindirs : Bool)
  | label
  | future
  | bind (handle : ℤ)
  | emit (i : Instr) (delay side : ℤ)
  deriving DecidableEq, Repr

namespace Call

/-- The call appends an instruction. -/
def isEmit : Call → Bool
  | emit .. => true
  | _ => false

/-- The call declares a forward label. -/
def isFuture : Call → Bool
  | future => true
  | _ => false

/-- The operand of a jump call. -/
def target? : Call → Option ℤ
  | emit i _ _ => i.target?
  | _ => none

end Call

/-- How many instructions the calls emit. -/
def emits (calls : List Call) : ℕ := calls.countP Call.isEmit

/-- How many futures the calls declare. -/
def futures (calls : List Call) : ℕ := calls.countP Call.isFuture

theorem emits_append (cs cs' : List Call) : emits (cs ++ cs') = emits cs + emits cs' :=
  List.countP_append

theorem futures_append (cs cs' : List Call) : futures (cs ++ cs') = futures cs + futures cs' :=
  List.countP_append

theorem emits_cons (c : Call) (cs : List Call) : emits (c :: cs) = emits [c] + emits cs :=
  emits_append [c] cs

theorem futures_cons (c : Call) (cs : List Call) : futures (c :: cs) = futures [c] + futures cs :=
  futures_append [c] cs

/-- An `Asm` with the values its `label()` and `future()` calls returned so far. -/
structure Session where
  asm : Asm
  labels : List ℤ
  handles : List ℤ

namespace Session

/-- Nothing called yet. -/
def start : Session := ⟨Asm.init, [], []⟩

variable [ShiftModel]

/-- Make one call. -/
def step (s : Session) : Call → Option Session
  | .sideSet c o p => some { s with asm := s.asm.sideSet c o p }
  | .label => some { s with labels := s.labels ++ [s.asm.label] }
  | .future => some { s with asm := s.asm.future.1, handles := s.handles ++ [s.asm.future.2] }
  | .bind h => (s.asm.bind h).map fun a => { s with asm := a }
  | .emit i d sd => (i.run d sd s.asm).map fun a => { s with asm := a }

/-- Make the calls in order. -/
def run : Session → List Call → Option Session
  | s, [] => some s
  | s, c :: cs => (s.step c).bind fun s' => s'.run cs

/-- The call passes on only what the session handed out: `bind` a handle, a jump a label or a
handle. -/
def Admits (s : Session) : Call → Prop
  | .bind h => h ∈ s.handles
  | .emit i _ _ => ∀ t ∈ i.target?, t ∈ s.labels ∨ t ∈ s.handles
  | _ => True

/-- Every one of the calls is admitted by the session it is made on. -/
def AdmitsAll : Session → List Call → Prop
  | _, [] => True
  | s, c :: cs => s.Admits c ∧ ∀ s' ∈ s.step c, s'.AdmitsAll cs

end Session

/-! ### The listing: what two passes compute -/

/-- An emitted instruction: its word without a jump target, the target operand of a jump, and
the address that operand stands for once it is known. -/
structure Item where
  word : BitVec 16
  target : Option ℤ
  dest : Option ℕ

namespace Item

/-- The instruction word, with 0 for an address that is not known. -/
def code (x : Item) : BitVec 16 :=
  match x.target with
  | none => x.word
  | some _ => x.word ||| BitVec.ofNat 16 (x.dest.getD 0 % 32)

/-- A jump to a handle that has no address. -/
def waits (x : Item) (h : ℤ) : Prop := x.target = some h ∧ x.dest = none

instance (x : Item) (h : ℤ) : Decidable (x.waits h) := inferInstanceAs (Decidable (_ ∧ _))

/-- A jump without an address. -/
def unresolved (x : Item) : Bool := x.target.isSome && x.dest.isNone

/-- Give handle `h` the address `n`. -/
def settle (h : ℤ) (n : ℕ) (x : Item) : Item := if x.waits h then { x with dest := some n } else x

end Item

/-- A program listing: the emitted instructions and where each handle was placed last. -/
structure Listing where
  items : List Item
  addr : ℤ → Option ℕ
  sideCount : ℤ
  sideOpt : Bool

namespace Listing

def init : Listing := ⟨[], fun _ => none, 0, false⟩

/-- The address a jump operand stands for: itself, or the last place of a handle. -/
def resolve (l : Listing) (t : ℤ) : Option ℕ := if t < 0 then l.addr t else some t.toNat

variable [ShiftModel]

/-- The item a method emits. -/
def item (l : Listing) (i : Instr) (d sd : ℤ) : Item where
  word := i.word ||| Asm.delayBits l.sideCount l.sideOpt d sd
  target := i.target?
  dest := i.target?.bind l.resolve

/-- The effect of a call. -/
def step (l : Listing) : Call → Listing
  | .sideSet c o _ => { l with sideCount := Int.land c 0x7, sideOpt := o }
  | .bind h =>
    { l with
      items := l.items.map (Item.settle h l.items.length)
      addr := Function.update l.addr h (some l.items.length) }
  | .emit i d sd => { l with items := l.items ++ [l.item i d sd] }
  | _ => l

/-- The listing of a sequence of calls. -/
def run (l : Listing) (calls : List Call) : Listing := calls.foldl step l

end Listing

/-! ### The assembler refines the listing -/

/-- What an entry of the fixup table says about its item. -/
def Item.fixup (x : Item) : ℕ :=
  match x.target, x.dest with
  | some t, none => (-t).toNat
  | _, _ => 0

/-- The assembler's arrays show the listing: the code words are the items', the fixup table
marks the jumps that wait, the address table holds the places of the handles, and the counter
counts the waiting jumps. -/
structure Asm.Shows (a : Asm) (l : Listing) : Prop where
  len : a.len = l.items.length
  code : ∀ (i : ℕ) (x : Item), l.items[i]? = some x → a.code[i]? = some x.code
  fixup : ∀ (i : ℕ) (x : Item), l.items[i]? = some x → a.fixup[i]? = some x.fixup
  fixup_end : ∀ i, l.items.length ≤ i → a.fixup[i]?.getD 0 = 0
  addr : ∀ id : Fin 8, a.fwAddr[id] = ((l.addr (-(id.val + 1))).map Nat.cast).getD (-1)
  pending : a.pending = l.items.countP Item.unresolved
  side : a.sideCount = l.sideCount ∧ a.sideOpt = l.sideOpt
  low : ∀ x ∈ l.items, x.target.isSome → x.word.toNat % 32 = 0
  waits : ∀ x ∈ l.items, x.unresolved → ∃ t, x.target = some t ∧ t < 0

namespace Asm

theorem init_shows : Asm.init.Shows Listing.init where
  len := rfl
  code := by simp [Listing.init]
  fixup := by simp [Listing.init]
  fixup_end := by
    intro i _
    by_cases h : i < 32 <;> simp [Asm.init, h]
  addr := by simp [Asm.init, Listing.init]
  pending := rfl
  side := ⟨rfl, rfl⟩
  low := by simp [Listing.init]
  waits := by simp [Listing.init]

theorem operand_natCast (n : ℕ) : operand n = BitVec.ofNat 16 (n % 32) := by
  rw [operand_eq]
  congr 1

theorem toNat_operand_lt (n : ℕ) : (BitVec.ofNat 16 (n % 32)).toNat < 2 ^ 5 := by
  rw [BitVec.toNat_ofNat]
  omega

/-- Patching a jump word puts the new address in its low bits. -/
theorem code_patch {x : Item} {t : ℤ} (ht : x.target = some t) (hlow : x.word.toNat % 32 = 0)
    (n : ℕ) :
    (x.code &&& ~~~0x1F#16) ||| BitVec.ofInt 16 (Int.land n 0x1F)
      = ({ x with dest := some n } : Item).code := by
  have hclear := BitVec.clearLow_or (n := 16) (w := 5) hlow (toNat_operand_lt (x.dest.getD 0))
  have hmask : (0x1F#16) = BitVec.ofNat 16 (2 ^ 5 - 1) := rfl
  have hop : BitVec.ofInt 16 (Int.land n 0x1F) = BitVec.ofNat 16 (n % 32) := operand_natCast n
  simp only [Item.code, ht, Option.getD_some]
  rw [hmask, hop, hclear]

variable {a : Asm} {l : Listing}

/-- The entry of a waiting jump names its handle, and only such an entry does. -/
theorem fixup_eq_iff {x : Item} (hw : x.unresolved → ∃ t, x.target = some t ∧ t < 0) (id : Fin 8) :
    x.fixup = id.val + 1 ↔ x.waits (-(id.val + 1)) := by
  obtain ⟨word, target, dest⟩ := x
  cases target with
  | none => simp [Item.fixup, Item.waits]
  | some t =>
    cases dest with
    | some n => simp [Item.fixup, Item.waits]
    | none =>
      obtain ⟨t', ht', hneg⟩ := hw rfl
      cases ht'
      simp only [Item.fixup, Item.waits, Option.some.injEq, and_true]
      omega

theorem patch_frame (id : Fin 8) (a : Asm) (i : ℕ) :
    (patch id a i).len = a.len ∧ (patch id a i).fwUsed = a.fwUsed ∧
      (patch id a i).sidePindirs = a.sidePindirs := by
  rw [patch]
  split <;> exact ⟨rfl, rfl, rfl⟩

/-- What holds of items and entries at the same places holds after a change at one place. -/
theorem forall_getElem?_set {β : Type} {entries : Vector β 32} {f : Item → β} {k : ℕ} {y : Item}
    (hk : k < l.items.length) (hk32 : k < 32)
    (h : ∀ (i : ℕ) (x : Item), l.items[i]? = some x → entries[i]? = some (f x)) (i : ℕ) (x : Item)
    (hx : (l.items.set k y)[i]? = some x) :
    (entries.setIfInBounds k (f y))[i]? = some (f x) := by
  rw [List.getElem?_set] at hx
  rw [Vector.getElem?_setIfInBounds]
  by_cases hik : k = i
  · rw [if_pos hik, if_pos hk, Option.some.injEq] at hx
    rw [if_pos hik, if_pos hk32, hx]
  · rw [if_neg hik] at hx ⊢
    exact h i x hx

/-- A jump that waits for the handle gets its address. -/
theorem patch_shows_waiting (h : a.Shows l) {k : ℕ} {x : Item} (hx : l.items[k]? = some x)
    {id : Fin 8} (ht : x.target = some (-((id.val : ℤ) + 1))) (hd : x.dest = none) :
    (patch id a k).Shows { l with items := l.items.set k { x with dest := some l.items.length } } := by
  obtain ⟨hk, hxk⟩ := List.getElem?_eq_some_iff.mp hx
  have hxm : x ∈ l.items := List.mem_of_getElem? hx
  have hfix := h.fixup k x hx
  have hk32 : k < 32 := (Vector.getElem?_eq_some_iff.mp hfix).1
  have hcond : a.fixup[k]?.getD 0 = id.val + 1 := by
    rw [hfix]
    exact (fixup_eq_iff (h.waits x hxm) id).mpr ⟨ht, hd⟩
  have hword : (a.code[k]?.getD 0 &&& ~~~0x1F#16) ||| BitVec.ofInt 16 (Int.land a.len 0x1F)
      = ({ x with dest := some l.items.length } : Item).code := by
    rw [h.code k x hx, Option.getD_some, h.len]
    exact code_patch ht (h.low x hxm (by simp [ht])) l.items.length
  have hentry : ({ x with dest := some l.items.length } : Item).fixup = 0 := by
    simp [Item.fixup, ht]
  rw [patch, if_pos hcond, hword, ← hentry]
  constructor
  · simpa using h.len
  · exact forall_getElem?_set hk hk32 h.code
  · exact forall_getElem?_set hk hk32 h.fixup
  · intro i hi
    rw [List.length_set] at hi
    rw [Vector.getElem?_setIfInBounds_ne (by omega)]
    exact h.fixup_end i hi
  · exact h.addr
  · have hun : x.unresolved = true := by simp [Item.unresolved, ht, hd]
    have hpos : 0 < l.items.countP Item.unresolved := List.countP_pos_iff.mpr ⟨x, hxm, hun⟩
    simp only [List.countP_set hk, hxk, hun, h.pending]
    simp only [Item.unresolved, Option.isNone_some, Bool.and_false]
    simp only [↓reduceIte, Bool.false_eq_true, add_zero]
    rw [Nat.cast_sub hpos]
    rfl
  · exact h.side
  · intro y hy hyt
    rcases List.mem_or_eq_of_mem_set hy with hy | rfl
    · exact h.low y hy hyt
    · exact h.low x hxm hyt
  · intro y hy hyu
    rcases List.mem_or_eq_of_mem_set hy with hy | rfl
    · exact h.waits y hy hyu
    · simp [Item.unresolved] at hyu

/-- One round of `bind`'s loop settles one item. -/
theorem patch_shows (h : a.Shows l) {k : ℕ} {x : Item} (hx : l.items[k]? = some x) (id : Fin 8) :
    (patch id a k).Shows
      { l with items := l.items.set k (x.settle (-(id.val + 1)) l.items.length) } := by
  by_cases hw : x.waits (-(id.val + 1))
  · rw [Item.settle, if_pos hw]
    exact patch_shows_waiting h hx hw.1 hw.2
  · have hcond : ¬ a.fixup[k]?.getD 0 = id.val + 1 := by
      rw [h.fixup k x hx]
      exact fun hc => hw ((fixup_eq_iff (h.waits x (List.mem_of_getElem? hx)) id).mp hc)
    obtain ⟨_, rfl⟩ := List.getElem?_eq_some_iff.mp hx
    rw [patch, if_neg hcond, Item.settle, if_neg hw, List.set_getElem_self]
    exact h

/-- A handle returned by one of the first eight `future()` calls indexes the address table. -/
theorem exists_fwIndex {handle : ℤ} (hneg : handle < 0) (hge : -8 ≤ handle) :
    ∃ id : Fin 8, fwIndex handle = some id ∧ handle = -((id.val : ℤ) + 1) := by
  refine ⟨⟨(-handle - 1).toNat, by omega⟩, ?_, ?_⟩
  · exact dif_pos ⟨by omega, by omega⟩
  · simp only
    omega

/-- The place of a handle is stored before the loop runs. -/
theorem place_shows (h : a.Shows l) (id : Fin 8) :
    ({ a with fwAddr := a.fwAddr.set id (a.len : ℤ) id.isLt } : Asm).Shows
      { l with addr := Function.update l.addr (-((id.val : ℤ) + 1)) (some l.items.length) } := by
  refine ⟨h.len, h.code, h.fixup, h.fixup_end, fun id' => ?_, h.pending, h.side, h.low, h.waits⟩
  by_cases hid' : id' = id
  · subst hid'
    simp [h.len]
  · have hval : id.val ≠ id'.val := fun hc => hid' (Fin.ext hc.symm)
    have hne : -((id'.val : ℤ) + 1) ≠ -((id.val : ℤ) + 1) := by omega
    simp only [Function.update_of_ne hne]
    simpa [Vector.getElem_set_ne _ _ hval] using h.addr id'

/-- A list whose first `k` elements are mapped, with the next one mapped too. -/
theorem set_map_take (items : List Item) {k : ℕ} (hk : k < items.length) (f : Item → Item) :
    ((items.take k).map f ++ items.drop k)[k]? = some items[k] ∧
      ((items.take k).map f ++ items.drop k).set k (f items[k])
        = (items.take (k + 1)).map f ++ items.drop (k + 1) := by
  have htake : ((items.take k).map f).length = k := by
    rw [List.length_map, List.length_take]
    omega
  constructor
  · rw [List.getElem?_append_right htake.le, htake]
    simp [hk]
  · rw [List.set_append_right _ _ htake.le, htake, Nat.sub_self, List.drop_eq_getElem_cons hk,
      List.set_cons_zero, List.take_succ_eq_append_getElem hk, List.map_append, List.append_assoc]
    rfl

/-- After `k` rounds of `bind`'s loop the first `k` items are settled. -/
theorem foldl_patch_shows (h : a.Shows l) (id : Fin 8) {k : ℕ} (hk : k ≤ l.items.length) :
    ((List.range k).foldl (patch id) a).len = a.len ∧
      ((List.range k).foldl (patch id) a).fwUsed = a.fwUsed ∧
      ((List.range k).foldl (patch id) a).sidePindirs = a.sidePindirs ∧
      ((List.range k).foldl (patch id) a).Shows { l with
        items := (l.items.take k).map (Item.settle (-((id.val : ℤ) + 1)) l.items.length)
          ++ l.items.drop k } := by
  induction k with
  | zero => exact ⟨rfl, rfl, rfl, by simpa using h⟩
  | succ k ih =>
    obtain ⟨hlen, hused, hpin, hshows⟩ := ih (by omega)
    obtain ⟨hget, hset⟩ := set_map_take l.items (k := k) (by omega)
      (Item.settle (-((id.val : ℤ) + 1)) l.items.length)
    have hlength : ((l.items.take k).map (Item.settle (-((id.val : ℤ) + 1)) l.items.length)
        ++ l.items.drop k).length = l.items.length := by
      simp only [List.length_append, List.length_map, List.length_take, List.length_drop]
      omega
    have hpatch := patch_shows hshows hget id
    simp only [hlength, hset] at hpatch
    rw [List.range_succ, List.foldl_append, List.foldl_cons, List.foldl_nil]
    obtain ⟨hlen', hused', hpin'⟩ := patch_frame id ((List.range k).foldl (patch id) a) k
    exact ⟨hlen'.trans hlen, hused'.trans hused, hpin'.trans hpin, hpatch⟩

/-- `bind` settles every item that waits for its handle. -/
theorem bind_shows (h : a.Shows l) {handle : ℤ} (hneg : handle < 0) (hge : -8 ≤ handle) :
    ∃ a', a.bind handle = some a' ∧ a'.len = a.len ∧ a'.fwUsed = a.fwUsed ∧
      a'.sidePindirs = a.sidePindirs ∧
      a'.Shows
        { l with
          items := l.items.map (Item.settle handle l.items.length)
          addr := Function.update l.addr handle (some l.items.length) } := by
  obtain ⟨id, hid, rfl⟩ := exists_fwIndex hneg hge
  have hloop := foldl_patch_shows (place_shows h id) id le_rfl
  simp only [List.take_length, List.drop_length, List.append_nil] at hloop
  refine ⟨_, ?_, hloop⟩
  rw [← h.len]
  simp only [bind, hid, Option.bind_eq_bind, Option.bind_some]
  rfl

/-- Nothing waits at the place of the next instruction. -/
theorem Shows.fixup_free (h : a.Shows l) (hlen : a.len < 32) : a.fixup[a.len]? = some 0 := by
  have h0 := h.fixup_end a.len h.len.ge
  rw [Vector.getElem?_eq_getElem hlen, Option.getD_some] at h0
  rw [Vector.getElem?_eq_getElem hlen, h0]

/-- Appending an instruction appends its item. -/
theorem Shows.push {a' : Asm} (h : a.Shows l) (hlen : a.len < 32) {x : Item}
    (hcode : a'.code = a.code.set a.len x.code) (hlen' : a'.len = a.len + 1)
    (hfix : a'.fixup[a.len]? = some x.fixup) (hfix' : ∀ i, i ≠ a.len → a'.fixup[i]? = a.fixup[i]?)
    (haddr : a'.fwAddr = a.fwAddr) (hpend : a'.pending = a.pending + if x.unresolved then 1 else 0)
    (hside : a'.sideCount = a.sideCount ∧ a'.sideOpt = a.sideOpt)
    (hlow : x.target.isSome → x.word.toNat % 32 = 0)
    (hwaits : x.unresolved → ∃ t, x.target = some t ∧ t < 0) :
    a'.Shows { l with items := l.items ++ [x] } := by
  have hlast : ∀ {i : ℕ} {y : Item}, (l.items ++ [x])[i]? = some y →
      (i ≠ a.len ∧ l.items[i]? = some y) ∨ (i = a.len ∧ y = x) := by
    intro i y hy
    have hi : i < l.items.length + 1 := by simpa using (List.getElem?_eq_some_iff.mp hy).1
    rcases Nat.lt_or_ge i l.items.length with hlt | hge
    · rw [List.getElem?_append_left hlt] at hy
      exact .inl ⟨by have := h.len; omega, hy⟩
    · obtain rfl : i = l.items.length := by omega
      rw [List.getElem?_concat_length, Option.some.injEq] at hy
      exact .inr ⟨h.len.symm, hy.symm⟩
  constructor
  · simp [hlen', h.len]
  · intro i y hy
    rcases hlast hy with ⟨hne, hy⟩ | ⟨rfl, rfl⟩
    · rw [hcode, Vector.getElem?_set_ne _ hne.symm]
      exact h.code i y hy
    · rw [hcode]
      exact Vector.getElem?_set_self hlen
  · intro i y hy
    rcases hlast hy with ⟨hne, hy⟩ | ⟨rfl, rfl⟩
    · rw [hfix' i hne]
      exact h.fixup i y hy
    · exact hfix
  · intro i hi
    rw [List.length_append, List.length_singleton] at hi
    have := h.len
    rw [hfix' i (by omega)]
    exact h.fixup_end i (by omega)
  · rw [haddr]
    exact h.addr
  · rw [hpend, h.pending, List.countP_append, List.countP_singleton]
    push_cast
    rfl
  · exact ⟨hside.1.trans h.side.1, hside.2.trans h.side.2⟩
  · intro y hy
    rcases List.mem_append.mp hy with hy | hy
    · exact h.low y hy
    · rw [List.mem_singleton.mp hy]
      exact hlow
  · intro y hy
    rcases List.mem_append.mp hy with hy | hy
    · exact h.waits y hy
    · rw [List.mem_singleton.mp hy]
      exact hwaits

theorem delayBits_mod [ShiftModel] (c : ℤ) (o : Bool) (d sd : ℤ) :
    (delayBits c o d sd).toNat % 32 = 0 := by
  rw [delayBits, BitVec.toNat_shiftLeft, Nat.shiftLeft_eq]
  omega

theorem or_delayBits_mod [ShiftModel] {w : BitVec 16} (hw : w.toNat % 32 = 0) (c : ℤ) (o : Bool)
    (d sd : ℤ) : (w ||| delayBits c o d sd).toNat % 32 = 0 := by
  have h := delayBits_mod c o d sd
  rw [show 32 = 2 ^ 5 from rfl] at hw h ⊢
  rw [BitVec.toNat_or, Nat.or_mod_two_pow, hw, h, Nat.zero_or]

theorem or_or_delayBits [ShiftModel] (w t : BitVec 16) (c : ℤ) (o : Bool) (d sd : ℤ) :
    w ||| t ||| delayBits c o d sd = w ||| delayBits c o d sd ||| t := by
  rw [BitVec.or_assoc, BitVec.or_comm t, BitVec.or_assoc]

/-- What `emit` does where there is room. -/
theorem emit_eq [ShiftModel] (hlen : a.len < 32) (w : BitVec 16) (d sd : ℤ) :
    a.emit w d sd = some { a with
      code := a.code.set a.len (w ||| delayBits a.sideCount a.sideOpt d sd)
      len := a.len + 1
      len_le := hlen } := dif_pos hlen

/-- `p` appends the item `x`. -/
def Appends (a : Asm) (l : Listing) (p : Option Asm) (x : Item) : Prop :=
  ∃ a', p = some a' ∧ a'.len = a.len + 1 ∧ a'.fwUsed = a.fwUsed ∧ a'.sidePindirs = a.sidePindirs ∧
    a'.Shows { l with items := l.items ++ [x] }

section Jumps

variable [ShiftModel] {w : BitVec 16} {t : ℤ} {d sd : ℤ}

/-- A jump whose address is known. -/
theorem emitJmp_known (h : a.Shows l) (hlen : a.len < 32) (hw : w.toNat % 32 = 0) {n : ℕ}
    (hemit : a.emitJmp w t d sd = a.emit (w ||| operand n) d sd) :
    Appends a l (a.emitJmp w t d sd)
      ⟨w ||| delayBits l.sideCount l.sideOpt d sd, some t, some n⟩ := by
  rw [hemit, emit_eq hlen]
  refine ⟨_, rfl, rfl, rfl, rfl, h.push hlen ?_ rfl ?_ (fun _ _ => rfl) rfl ?_ ⟨rfl, rfl⟩
    (fun _ => or_delayBits_mod hw l.sideCount l.sideOpt d sd) ?_⟩
  · simp only [Item.code, Option.getD_some, h.side.1, h.side.2]
    rw [operand_natCast, or_or_delayBits]
  · exact h.fixup_free hlen
  · simp [Item.unresolved]
  · simp [Item.unresolved]

/-- A jump to a handle without an address leaves a fixup. -/
theorem emitJmp_waiting (h : a.Shows l) (hlen : a.len < 32) (hw : w.toNat % 32 = 0) {id : Fin 8}
    (hid : fwIndex t = some id) (ht : t = -((id.val : ℤ) + 1)) (hpos : ¬ 0 ≤ a.fwAddr[id]) :
    Appends a l (a.emitJmp w t d sd)
      ⟨w ||| delayBits l.sideCount l.sideOpt d sd, some t, none⟩ := by
  have hneg : t < 0 := by omega
  refine ⟨{ a with
    code := a.code.set a.len (w ||| operand 0 ||| delayBits a.sideCount a.sideOpt d sd)
    len := a.len + 1
    fixup := a.fixup.set a.len (id.val + 1)
    pending := a.pending + 1
    len_le := hlen }, ?_, rfl, rfl, rfl, h.push hlen ?_ rfl ?_ ?_ rfl ?_ ⟨rfl, rfl⟩
      (fun _ => or_delayBits_mod hw l.sideCount l.sideOpt d sd) ?_⟩
  · simp only [emitJmp, jmpTarget, if_pos hneg, hid, Option.bind_eq_bind, Option.bind_some,
      if_neg hpos, dif_pos hlen]
    exact dif_pos hlen
  · simp only [Item.code, Option.getD_none, h.side.1, h.side.2]
    rw [show operand 0 = BitVec.ofNat 16 (0 % 32) from rfl, or_or_delayBits]
  · simp only [Item.fixup]
    rw [Vector.getElem?_set_self hlen, ht, neg_neg]
    congr 1
  · exact fun i hi => Vector.getElem?_set_ne hlen hi.symm
  · simp [Item.unresolved]
  · exact fun _ => ⟨_, rfl, hneg⟩

/-- A jump resolves its target from the address table, or leaves a fixup. -/
theorem emitJmp_shows (h : a.Shows l) (hlen : a.len < 32) (hw : w.toNat % 32 = 0) (ht : -8 ≤ t)
    (d sd : ℤ) :
    Appends a l (a.emitJmp w t d sd)
      ⟨w ||| delayBits l.sideCount l.sideOpt d sd, some t, l.resolve t⟩ := by
  by_cases hneg : t < 0
  · obtain ⟨id, hid, rfl⟩ := exists_fwIndex hneg ht
    have haddr := h.addr id
    rw [Listing.resolve, if_pos hneg]
    cases hl : l.addr (-((id.val : ℤ) + 1)) with
    | some n =>
      rw [hl, Option.map_some, Option.getD_some] at haddr
      have hpos : 0 ≤ a.fwAddr[id] := by
        rw [haddr]
        exact Int.natCast_nonneg n
      refine emitJmp_known h hlen hw ?_
      simp only [emitJmp, jmpTarget, if_pos hneg, hid, Option.bind_eq_bind, Option.bind_some,
        if_pos hpos]
      rw [haddr]
      rfl
    | none =>
      rw [hl, Option.map_none, Option.getD_none] at haddr
      refine emitJmp_waiting h hlen hw hid rfl ?_
      rw [haddr]
      omega
  · have hcast : ((t.toNat : ℕ) : ℤ) = t := Int.toNat_of_nonneg (by omega)
    rw [Listing.resolve, if_neg hneg]
    refine emitJmp_known h hlen hw ?_
    simp only [emitJmp, jmpTarget, if_neg hneg, Option.bind_eq_bind]
    rw [hcast]
    rfl

end Jumps

/-- Every emit method appends the item of the listing. -/
theorem run_shows [ShiftModel] (h : a.Shows l) (hlen : a.len < 32) {i : Instr}
    (ht : ∀ t ∈ i.target?, -8 ≤ t) (d sd : ℤ) :
    Appends a l (i.run d sd a) (l.item i d sd) := by
  cases htgt : i.target? with
  | some t =>
    have hw : i.word.toNat % 32 = 0 := by cases i <;> first | simp [Instr.word]; done | cases htgt
    have hjmp := emitJmp_shows h hlen hw (ht t (by rw [htgt]; rfl)) d sd
    rw [Instr.run_of_target_eq_some htgt]
    simpa only [Listing.item, htgt, Option.bind_some] using hjmp
  | none =>
    rw [Instr.run_of_target_eq_none htgt, emit_eq hlen]
    refine ⟨_, rfl, rfl, rfl, rfl, h.push hlen ?_ rfl ?_ (fun _ _ => rfl) rfl ?_ ⟨rfl, rfl⟩ ?_ ?_⟩
    · simp [Item.code, Listing.item, htgt, h.side.1, h.side.2]
    · refine (h.fixup_free hlen).trans ?_
      simp [Item.fixup, Listing.item, htgt]
    · simp [Item.unresolved, Listing.item, htgt]
    · simp [Listing.item, htgt]
    · simp [Item.unresolved, Listing.item, htgt]

end Asm

/-! ### Sessions keep showing their listing -/

/-- The session shows the listing, and what it handed out stays in range: labels are
addresses up to the current one, handles are the negatives up to the number of futures. -/
structure Session.Good (s : Session) (l : Listing) : Prop where
  shows : s.asm.Shows l
  labels : ∀ t ∈ s.labels, 0 ≤ t ∧ t ≤ s.asm.len
  handles : ∀ h ∈ s.handles, -(s.asm.fwUsed : ℤ) ≤ h ∧ h < 0

theorem Session.start_good : Session.start.Good Listing.init where
  shows := Asm.init_shows
  labels := by simp [Session.start]
  handles := by simp [Session.start]

section Sessions

variable [ShiftModel]

/-- **Step lemma.** An admitted call that stays inside the tables is defined, and keeps the
session on its listing. -/
theorem Session.Good.step {s : Session} {l : Listing} (h : s.Good l) {c : Call}
    (hadm : s.Admits c) (hlen : s.asm.len + emits [c] ≤ 32)
    (hfut : s.asm.fwUsed + futures [c] ≤ 8) :
    ∃ s', s.step c = some s' ∧ s'.Good (l.step c) ∧ s'.asm.len = s.asm.len + emits [c] ∧
      s'.asm.fwUsed = s.asm.fwUsed + futures [c] := by
  cases c with
  | sideSet c o p =>
    have hs := h.shows
    exact ⟨_, rfl, ⟨⟨hs.len, hs.code, hs.fixup, hs.fixup_end, hs.addr, hs.pending, ⟨rfl, rfl⟩,
      hs.low, hs.waits⟩, h.labels, h.handles⟩, rfl, rfl⟩
  | label =>
    refine ⟨_, rfl, ⟨h.shows, fun t ht => ?_, h.handles⟩, rfl, rfl⟩
    rcases List.mem_append.mp ht with ht | ht
    · exact h.labels t ht
    · rw [List.mem_singleton.mp ht]
      exact ⟨Int.natCast_nonneg _, le_rfl⟩
  | future =>
    have hs := h.shows
    refine ⟨_, rfl, ⟨⟨hs.len, hs.code, hs.fixup, hs.fixup_end, hs.addr, hs.pending, hs.side,
      hs.low, hs.waits⟩, h.labels, fun t ht => ?_⟩, rfl, rfl⟩
    simp only [Asm.future, List.mem_append, List.mem_singleton] at ht ⊢
    push_cast
    rcases ht with ht | rfl
    · have := h.handles t ht
      omega
    · omega
  | bind handle =>
    have hh := h.handles handle hadm
    have hfut' : s.asm.fwUsed ≤ 8 := hfut
    obtain ⟨a', ha', hlen', hused, -, hshows⟩ := Asm.bind_shows h.shows hh.2 (by omega)
    refine ⟨{ s with asm := a' }, ?_, ⟨hshows, ?_, ?_⟩, hlen', hused⟩
    · simp only [Session.step, ha', Option.map_some]
    · simpa only [hlen'] using h.labels
    · simpa only [hused] using h.handles
  | emit i d sd =>
    have hlt : s.asm.len < 32 := hlen
    have hfut' : s.asm.fwUsed ≤ 8 := hfut
    have ht : ∀ t ∈ i.target?, -8 ≤ t := by
      intro t ht
      rcases hadm t ht with hl | hh
      · have := h.labels t hl
        omega
      · have := h.handles t hh
        omega
    obtain ⟨a', ha', hlen', hused, -, hshows⟩ := Asm.run_shows h.shows hlt ht d sd
    refine ⟨{ s with asm := a' }, ?_, ⟨hshows, fun t ht => ?_, ?_⟩, hlen', hused⟩
    · simp only [Session.step, ha', Option.map_some]
    · have := h.labels t ht
      simp only [hlen']
      push_cast
      omega
    · simpa only [hused] using h.handles

/-- **Run lemma.** Admitted calls that stay inside the tables are defined, and the program
they build shows their listing. -/
theorem Session.Good.run {calls : List Call} :
    ∀ {s : Session} {l : Listing}, s.Good l → s.AdmitsAll calls →
      s.asm.len + emits calls ≤ 32 → s.asm.fwUsed + futures calls ≤ 8 →
      ∃ s', s.run calls = some s' ∧ s'.Good (l.run calls) := by
  induction calls with
  | nil => exact fun h _ _ _ => ⟨_, rfl, h⟩
  | cons c cs ih =>
    intro s l h hadm hlen hfut
    have hlen₁ : emits (c :: cs) = emits [c] + emits cs := emits_cons c cs
    have hfut₁ : futures (c :: cs) = futures [c] + futures cs := futures_cons c cs
    obtain ⟨s₁, hs₁, hg, hl, hf⟩ := h.step hadm.1 (by omega) (by omega)
    obtain ⟨s', hs', hg'⟩ := ih hg (hadm.2 s₁ hs₁) (by omega) (by omega)
    exact ⟨s', by rw [Session.run, hs₁]; exact hs', hg'⟩

end Sessions

end Pio
