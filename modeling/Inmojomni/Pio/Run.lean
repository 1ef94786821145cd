import Inmojomni.Pio.RoundTrip
import Inmojomni.Pio.TwoPass

/-!
# Where a loaded program runs

One cycle of a state machine, as the RP2040 datasheet describes it (§3.4, §3.5.1): it executes
the instruction at its program counter, and then goes on at the target of a taken jump, or at
the next address, which after WRAP_TOP is WRAP_BOTTOM. What a cycle finds outside the
instruction memory and the two scratch registers is its `Inputs`: pins, shift registers, and
whether a FIFO or a wait makes it stall.

`run_inside_iff` says when a loaded program stays inside itself: exactly when no cycle takes a
jump to a label that was bound behind the last instruction of a program with fewer than 32. Such a
jump goes to the word behind the program (`run_outside`), while falling off the end at the same
place wraps around to 0.
-/

open Mmio Effect

namespace Pio

/-! ### One cycle -/

/-- The program counter and the scratch registers. -/
structure Core where
  pc : BitVec 5
  x : Word
  y : Word
  deriving DecidableEq, Repr

/-- What a cycle finds: the jump pin, whether the OSR has reached its threshold, whether the
instruction stalls, what it reads from pins or shift registers, and where an instruction that is
passed to EXEC leaves the core. -/
structure Inputs where
  pin : Bool
  osrEmpty : Bool
  stall : Bool
  data : Word
  exec : Core

/-- EXECCTRL.WRAP_TOP and EXECCTRL.WRAP_BOTTOM. -/
structure Wrap where
  top : BitVec 5
  bottom : BitVec 5
  deriving DecidableEq, Repr

/-- The wrap addresses in the register. -/
def Wrap.read (execctrl : Word) : Wrap := ⟨execctrl.extractLsb' 12 5, execctrl.extractLsb' 7 5⟩

/-- The address after `pc`, without a jump. -/
def Wrap.next (w : Wrap) (pc : BitVec 5) : BitVec 5 := if pc = w.top then w.bottom else pc + 1

/-- A jump condition. -/
def Core.condition (c : Core) (inp : Inputs) : BitVec 3 → Bool
  | 0 => true
  | 1 => c.x = 0
  | 2 => c.x ≠ 0
  | 3 => c.y = 0
  | 4 => c.y ≠ 0
  | 5 => c.x ≠ c.y
  | 6 => inp.pin
  | _ => !inp.osrEmpty

/-- The conditions `X--` and `Y--` decrement their register, whether the jump is taken or not. -/
def Core.decrement (c : Core) : BitVec 3 → Core
  | 2 => { c with x := c.x - 1 }
  | 4 => { c with y := c.y - 1 }
  | _ => c

/-- What MOV copies. -/
def Core.source (c : Core) (inp : Inputs) (op : BitVec 2) (source : BitVec 3) : Word :=
  let v := match source with
    | 1 => c.x
    | 2 => c.y
    | 3 => 0
    | _ => inp.data
  match op with
  | 1 => ~~~v
  | 2 => v.reverse
  | _ => v

/-- One cycle. The instruction memory is `mem`. -/
def Core.cycle (mem : BitVec 5 → BitVec 16) (w : Wrap) (inp : Inputs) (c : Core) : Core :=
  let next := { c with pc := w.next c.pc }
  match decode (mem c.pc) with
  | .jmp cond a => { c.decrement cond with pc := if c.condition inp cond then a else w.next c.pc }
  | .wait .. | .push .. | .pull .. | .irq .. => if inp.stall then c else next
  | .inp .. => if inp.stall then c else next
  | .out destination _ =>
    if inp.stall then c else
    match destination with
    | 1 => { next with x := inp.data }
    | 2 => { next with y := inp.data }
    | 5 => { c with pc := inp.data.setWidth 5 }
    | 7 => inp.exec
    | _ => next
  | .mov destination op source =>
    let v := c.source inp op source
    match destination with
    | 1 => { next with x := v }
    | 2 => { next with y := v }
    | 4 => inp.exec
    | 5 => { c with pc := v.setWidth 5 }
    | _ => next
  | .set destination data =>
    match destination with
    | 1 => { next with x := data.setWidth 32 }
    | 2 => { next with y := data.setWidth 32 }
    | _ => next

/-- The core after some cycles. -/
def Core.after (mem : BitVec 5 → BitVec 16) (w : Wrap) (c : Core) (inps : List Inputs) : Core :=
  inps.foldl (fun c inp => c.cycle mem w inp) c

theorem Core.after_concat (mem : BitVec 5 → BitVec 16) (w : Wrap) (c : Core) (inps : List Inputs)
    (inp : Inputs) : c.after mem w (inps ++ [inp]) = (c.after mem w inps).cycle mem w inp :=
  List.foldl_concat _ _ _ _

section Cycle

variable {mem : BitVec 5 → BitVec 16} {w : Wrap} {inp : Inputs} {c : Core}

/-- A jump goes to its target or to the next address. -/
theorem cycle_jmp {cond : BitVec 3} {a : BitVec 5} (h : decode (mem c.pc) = .jmp cond a) :
    (c.cycle mem w inp).pc = if c.condition inp cond then a else w.next c.pc := by
  rw [Core.cycle, h]

/-- Every jump of the assembler has a target. -/
theorem Isa.target_of_jmp {cond : BitVec 3} {a : BitVec 5} {i : Instr}
    (h : (Isa.jmp cond a).method? = some i) : i.target? ≠ none := by
  have hall : ∀ k : Fin 8, ∀ i ∈ (Isa.jmp ⟨k⟩ a).method?, i.target? ≠ none := by
    intro k i hi
    fin_cases k <;> cases hi <;> exact Option.some_ne_none _
  exact hall cond.toFin i h

/-- The assembler has no OUT to the program counter and none that executes what it shifts out. -/
theorem Isa.destination_of_out {destination : BitVec 3} {count : BitVec 5} {i : Instr}
    (h : (Isa.out destination count).method? = some i) : destination = 0 ∨ destination = 1 := by
  have hall : ∀ k : Fin 8, ∀ i ∈ (Isa.out ⟨k⟩ count).method?, k = 0 ∨ k = 1 := by
    intro k i hi
    fin_cases k <;> first | exact .inl rfl | exact .inr rfl | cases hi
  exact (hall destination.toFin i h).imp (congrArg BitVec.ofFin) (congrArg BitVec.ofFin)

theorem Isa.destination_of_mov : ∀ {destination : BitVec 3} {op : BitVec 2} {source : BitVec 3},
    (Isa.mov destination op source).method? ≠ none →
      destination = 0 ∨ destination = 1 ∨ destination = 2 := by
  decide

/-- The assembler's other instructions stay where they are or go to the next address. -/
theorem cycle_of_not_jump {i : Instr} (h : (decode (mem c.pc)).method? = some i)
    (hi : i.target? = none) :
    (c.cycle mem w inp).pc = c.pc ∨ (c.cycle mem w inp).pc = w.next c.pc := by
  rw [Core.cycle]
  generalize decode (mem c.pc) = isa at h ⊢
  have hstall : ∀ c' : Core, c'.pc = w.next c.pc →
      (if inp.stall then c else c').pc = c.pc ∨ (if inp.stall then c else c').pc = w.next c.pc := by
    intro c' hc'
    cases inp.stall with
    | true => exact .inl rfl
    | false => exact .inr hc'
  cases isa with
  | jmp cond a => exact absurd hi (Isa.target_of_jmp h)
  | out destination count =>
    rcases Isa.destination_of_out h with rfl | rfl
    · exact hstall _ rfl
    · exact hstall _ rfl
  | mov destination op source =>
    have hne : (Isa.mov destination op source).method? ≠ none := h ▸ Option.some_ne_none _
    rcases Isa.destination_of_mov hne with rfl | rfl | rfl
    · exact .inr rfl
    · exact .inr rfl
    · exact .inr rfl
  | set destination data =>
    refine .inr ?_
    dsimp only
    split <;> rfl
  | _ => exact hstall _ rfl

end Cycle

/-! ### Where jumps go -/

theorem binds_le {h : ℤ} {cs : List Call} : ∀ {n m : ℕ}, m ∈ binds h n cs → m ≤ n + emits cs := by
  induction cs with
  | nil => simp [binds]
  | cons c cs ih =>
    intro n m hm
    rw [emits_cons]
    cases c with
    | bind h' =>
      rw [binds] at hm
      split at hm
      · rcases List.mem_cons.mp hm with rfl | hm
        · exact Nat.le_add_right _ _
        · exact (ih hm).trans (by simp [emits, Call.isEmit])
      · exact (ih hm).trans (by simp [emits, Call.isEmit])
    | emit i d sd =>
      have hone : emits [.emit i d sd] = 1 := rfl
      have := ih hm
      omega
    | _ => exact (ih hm).trans (by simp [emits, Call.isEmit])

/-- A handle is placed at most behind the last instruction. -/
theorem jumpAddr_le {pre post : List Call} {i : Instr} {d sd h : ℤ} {n : ℕ}
    (hn : jumpAddr pre post h = some n) : n ≤ emits (pre ++ .emit i d sd :: post) := by
  have hemit : emits (.emit i d sd :: post) = 1 + emits post := emits_cons _ _
  rw [emits_append, hemit]
  rcases Option.or_eq_some_iff.mp hn with hpre | ⟨-, hpost⟩
  · have := binds_le (List.mem_of_getLast? hpre)
    omega
  · have := binds_le (List.mem_of_head? hpost)
    omega

/-- A handle that is bound somewhere has a place. -/
theorem jumpAddr_isSome {pre post : List Call} {i : Instr} {d sd h : ℤ}
    (hb : Call.bind h ∈ pre ++ .emit i d sd :: post) : (jumpAddr pre post h).isSome := by
  rw [jumpAddr, Option.isSome_or, Bool.or_eq_true]
  rcases List.mem_append.mp hb with hb | hb
  · refine .inl (List.getLast?_isSome.mpr fun hnil => binds_eq_nil_iff.mp hnil hb)
  · have hpost : Call.bind h ∈ post := by simpa using hb
    exact .inr (List.isSome_head?.mpr fun hnil => binds_eq_nil_iff.mp hnil hpost)

/-- Every address below the length is that of an emitted instruction. -/
theorem exists_emit {calls : List Call} : ∀ {k : ℕ}, k < emits calls →
    ∃ pre i d sd post, calls = pre ++ .emit i d sd :: post ∧ emits pre = k := by
  induction calls with
  | nil => exact fun h => absurd h (Nat.not_lt_zero _)
  | cons c cs ih =>
    intro k hk
    rw [emits_cons] at hk
    have hrest : emits [c] ≤ k → ∃ pre i d sd post,
        c :: cs = pre ++ .emit i d sd :: post ∧ emits pre = k := by
      intro hle
      obtain ⟨pre, i, d, sd, post, rfl, hpre⟩ := ih (k := k - emits [c]) (by omega)
      exact ⟨c :: pre, i, d, sd, post, rfl, by rw [emits_cons]; omega⟩
    cases c with
    | emit i d sd =>
      rcases k.eq_zero_or_pos with rfl | hpos
      · exact ⟨[], i, d, sd, cs, rfl, rfl⟩
      · exact hrest hpos
    | _ => exact hrest (Nat.zero_le _)

variable [ShiftModel]

theorem Session.AdmitsAll.admits {pre post : List Call} {c : Call} :
    ∀ {s s' : Session}, s.AdmitsAll (pre ++ c :: post) → s.run pre = some s' → s'.Admits c := by
  induction pre with
  | nil =>
    rintro s s' h hs
    cases hs
    exact h.1
  | cons c' cs ih =>
    rintro s s' h hs
    obtain ⟨s₁, hs₁, hs⟩ := Option.bind_eq_some_iff.mp hs
    exact ih (h.2 s₁ hs₁) hs

/-! ### The loaded program -/

/-- The condition of a jump. -/
def Instr.condition : Instr → BitVec 3
  | jmpNotX _ => 1
  | jmpXDec _ => 2
  | jmpNotY _ => 3
  | jmpYDec _ => 4
  | jmpPin _ => 6
  | _ => 0

omit [ShiftModel] in
/-- A jump decodes to a jump to the address in its low bits. -/
theorem decode_jump {i : Instr} {t : ℤ} (ht : i.target? = some t) (k : Fin 32) :
    decode (i.word ||| BitVec.ofNat 16 k) = .jmp i.condition (BitVec.ofNat 5 k) := by
  have key : ∀ k : Fin 32, ∀ c : Fin 8, decode (BitVec.ofNat 16 (0x20 * c) ||| BitVec.ofNat 16 k)
      = .jmp (BitVec.ofNat 3 c) (BitVec.ofNat 5 k) := by decide
  cases i with
  | jmp t => exact key k 0
  | jmpNotX t => exact key k 1
  | jmpXDec t => exact key k 2
  | jmpNotY t => exact key k 3
  | jmpYDec t => exact key k 4
  | jmpPin t => exact key k 6
  | _ => cases ht

/-- The side-set field does not touch the instruction. -/
theorem decode_or_delayBits (u : BitVec 16) (c : ℤ) (o : Bool) (d sd : ℤ) :
    decode (u ||| Asm.delayBits c o d sd) = decode u := by
  refine decode_congr fun k hk => ?_
  rw [delayBits_eq, BitVec.getLsbD_or, getLsbD_field (by omega) hk, Bool.or_false]

namespace StateMachine

variable (m : StateMachine)

omit [ShiftModel] in
/-- The instruction memory of the block. -/
def memory (r : Regs) (pc : BitVec 5) : BitVec 16 :=
  (r (m.block.reg (.instrMem pc.toFin))).setWidth 16

omit [ShiftModel] in
/-- The wrap addresses of the state machine. -/
def wrap (r : Regs) : Wrap := Wrap.read (r (m.block.reg (.execctrl m.sm)))

omit [ShiftModel] in
/-- `load` wraps from the last instruction to the first. -/
theorem wrap_load (a : Asm) (hlen : 1 ≤ a.len) (r : Regs) :
    m.wrap ((Method.load a).effect m r) = ⟨BitVec.ofNat 5 (a.len - 1), 0⟩ := by
  have key : ∀ n : Fin 32, ∀ o p : Bool, Wrap.read
      ((if p then (if o then ((BitVec.ofNat 32 n &&& 0x1F) <<< 12) ||| (1#32 <<< 30)
          else (BitVec.ofNat 32 n &&& 0x1F) <<< 12) ||| (1#32 <<< 29)
        else if o then ((BitVec.ofNat 32 n &&& 0x1F) <<< 12) ||| (1#32 <<< 30)
          else (BitVec.ofNat 32 n &&& 0x1F) <<< 12) &&& 0x7FFFFFFF) = ⟨BitVec.ofNat 5 n, 0⟩ := by
    decide
  have hlen' := a.len_le
  have htop : BitVec.ofInt 32 ((a.len : ℤ) - 1) = BitVec.ofNat 32 (a.len - 1) := by
    rw [show (a.len : ℤ) - 1 = ((a.len - 1 : ℕ) : ℤ) by omega, BitVec.ofInt_natCast]
  rw [wrap, Method.effect, putProgram, m.put_of_ne (by simp), m.put_self, loadExecctrl, htop]
  exact key ⟨a.len - 1, by omega⟩ a.sideOpt a.sidePindirs

omit [ShiftModel] in
theorem memory_load (a : Asm) (r : Regs) {pc : BitVec 5} (hpc : pc.toNat < a.len) :
    a.code[pc.toNat]? = some (m.memory ((Method.load a).effect m r) pc) := by
  have hcode := holds_load m a r pc.toFin hpc
  rw [memory, hcode, Vector.getElem?_eq_getElem pc.isLt, Option.some.injEq,
    BitVec.setWidth_setWidth_of_le _ (by decide : 16 ≤ 32), BitVec.setWidth_eq]
  rfl

end StateMachine

/-- The instructions of a session as they are in the end: a method that is no jump decodes to
itself, a jump to the address of its label. -/
theorem Session.Good.decode_code {s : Session} {pre post : List Call} {i : Instr} {d sd : ℤ}
    (hgood : s.Good (Listing.init.run (pre ++ .emit i d sd :: post))) :
    ∃ u, s.asm.code[emits pre]? = some u ∧
      (i.target? = none → (decode u).method? = some i.cut) ∧
      ∀ t n, i.target? = some t → destination pre post t = some n →
        decode u = .jmp i.condition (BitVec.ofNat 5 n) := by
  have hitem := Listing.run_split_getElem? pre post i d sd
  refine ⟨_, hgood.shows.code _ _ hitem, fun ht => ?_, fun t n ht hn => ?_⟩
  · have htgt : ((Listing.init.run pre).item i d sd).target = none := ht
    have hfull : i.fullWord = i.word := by rw [Instr.fullWord, ht]
    simp only [Item.code, Item.later_target, Item.later_word, htgt]
    rw [Listing.item, decode_or_delayBits, ← hfull, i.decode_fullWord]
  · have htgt : ((Listing.init.run pre).item i d sd).target = some t := ht
    have hdest := Listing.later_dest pre post i d sd ht
    have hjump := decode_jump ht ⟨n % 32, Nat.mod_lt _ (by decide)⟩
    simp only [Item.code, Item.later_target, Item.later_word, htgt, hdest, hn, Option.getD_some]
    rw [Listing.item, ← Asm.or_or_delayBits, decode_or_delayBits, hjump]
    congr 1
    refine BitVec.eq_of_toNat_eq ?_
    rw [BitVec.toNat_ofNat, BitVec.toNat_ofNat]
    exact Nat.mod_mod n 32

/-- The cycle takes a jump to a label that was bound behind the last instruction of a program
that does not fill the instruction memory. -/
def EndJump (calls : List Call) (c : Core) (inp : Inputs) : Prop :=
  emits calls < 32 ∧ ∃ pre i d sd post t, calls = pre ++ .emit i d sd :: post ∧
    emits pre = c.pc.toNat ∧ i.target? = some t ∧ destination pre post t = some (emits calls) ∧
    c.condition inp i.condition = true

/-- A complete program: all its calls are admitted and within the limits, it has an
instruction, and every jump has its address. -/
structure Complete (calls : List Call) (s : Session) : Prop where
  admits : Session.start.AdmitsAll calls
  emits_le : emits calls ≤ 32
  futures_le : futures calls ≤ 8
  run : Session.start.run calls = some s
  len_pos : 1 ≤ s.asm.len
  unresolved : s.asm.unresolved = 0

section Contained

variable {calls : List Call} {s : Session} (h : Complete calls s) (m : StateMachine) (r : Regs)

include h

theorem Complete.good : s.Good (Listing.init.run calls) := by
  obtain ⟨s', hs', hgood⟩ := Session.start_good.run h.admits
    ((Nat.zero_add _).trans_le h.emits_le) ((Nat.zero_add _).trans_le h.futures_le)
  rw [h.run, Option.some.injEq] at hs'
  rwa [← hs'] at hgood

theorem Complete.len_eq : s.asm.len = emits calls := by
  rw [h.good.shows.len, Listing.run_length]
  exact Nat.zero_add _

/-- Every jump has an address, which is at most that behind the last instruction. -/
theorem Complete.destination {pre post : List Call} {i : Instr} {d sd t : ℤ}
    (hc : calls = pre ++ .emit i d sd :: post) (ht : i.target? = some t) :
    ∃ n ≤ emits calls, destination pre post t = some n := by
  subst hc
  by_cases hneg : t < 0
  · -- a handle: it was bound, since no jump is left unresolved
    have hzero := h.good.unresolved_eq.symm.trans h.unresolved
    rw [unboundJumps, Nat.cast_eq_zero, List.countP_eq_zero] at hzero
    have hbound : Call.bind t ∈ pre ++ .emit i d sd :: post := by
      by_contra hb
      exact hzero (.emit i d sd) (by simp) (decide_eq_true ⟨t, ht, hneg, hb⟩)
    obtain ⟨n, hn⟩ := Option.isSome_iff_exists.mp (jumpAddr_isSome hbound)
    exact ⟨n, jumpAddr_le hn, by rw [Pio.destination, if_pos hneg, hn]⟩
  · -- a label: it was handed out before the jump was emitted
    refine ⟨t.toNat, ?_, by rw [Pio.destination, if_neg hneg]⟩
    obtain ⟨s₁, hs₁, hgood₁⟩ := Session.start_good.run h.admits.of_append
      (by
        have hle := h.emits_le
        rw [emits_append] at hle
        exact (Nat.zero_add _).trans_le (by omega))
      (by
        have hle := h.futures_le
        rw [futures_append] at hle
        exact (Nat.zero_add _).trans_le (by omega))
    have hlen₁ : s₁.asm.len = emits pre := by
      rw [hgood₁.shows.len, Listing.run_length]
      exact Nat.zero_add _
    rw [emits_append]
    rcases h.admits.admits hs₁ t ht with hl | hh
    · have := hgood₁.labels t hl
      omega
    · have := hgood₁.handles t hh
      omega

omit h [ShiftModel] in
/-- The address after an address of the program is one of the program. -/
theorem next_lt {n : ℕ} (hn : 1 ≤ n) (hn' : n ≤ 32) {pc : BitVec 5} (hpc : pc.toNat < n) :
    (Wrap.next ⟨BitVec.ofNat 5 (n - 1), 0⟩ pc).toNat < n := by
  rw [Wrap.next]
  split
  · exact hn
  · next hne =>
    have hne' : pc.toNat ≠ n - 1 := by
      intro heq
      refine hne (BitVec.eq_of_toNat_eq ?_)
      rw [heq, BitVec.toNat_ofNat]
      omega
    rw [BitVec.toNat_add, show BitVec.toNat (1 : BitVec 5) = 1 from rfl]
    omega

/-- What the state machine fetches at the address of an instruction. -/
theorem Complete.fetch {pre post : List Call} {i : Instr} {d sd : ℤ} {pc : BitVec 5}
    (hc : calls = pre ++ .emit i d sd :: post) (hpre : emits pre = pc.toNat) :
    (i.target? = none →
        (decode (m.memory ((Method.load s.asm).effect m r) pc)).method? = some i.cut) ∧
      ∀ t n, i.target? = some t → Pio.destination pre post t = some n →
        decode (m.memory ((Method.load s.asm).effect m r) pc)
          = .jmp i.condition (BitVec.ofNat 5 n) := by
  have hgood := h.good
  rw [hc] at hgood
  obtain ⟨u, hu, hfetch⟩ := hgood.decode_code
  have hlen : pc.toNat < s.asm.len := by
    rw [h.len_eq, ← hpre, hc, emits_append, emits_cons, show emits [.emit i d sd] = 1 from rfl]
    omega
  have hcode := m.memory_load s.asm r hlen
  rw [← hpre, hu, Option.some.injEq] at hcode
  rwa [← hcode]

/-- **Step lemma.** A cycle inside the program leads to an address of the program, unless it
takes a jump to the end of the program. -/
theorem Complete.cycle_lt {c : Core} (hpc : c.pc.toNat < s.asm.len) {inp : Inputs}
    (hend : ¬ EndJump calls c inp) :
    (c.cycle (m.memory ((Method.load s.asm).effect m r))
      (m.wrap ((Method.load s.asm).effect m r)) inp).pc.toNat < s.asm.len := by
  set r' := (Method.load s.asm).effect m r with hr'
  have hlen := h.len_eq
  have hlen32 := s.asm.len_le
  have hlen1 := h.len_pos
  have hnext : ((m.wrap r').next c.pc).toNat < s.asm.len := by
    rw [hr', m.wrap_load s.asm hlen1 r]
    exact next_lt hlen1 hlen32 hpc
  obtain ⟨pre, i, d, sd, post, hc, hpre⟩ := exists_emit (hlen ▸ hpc)
  obtain ⟨hother, hjump⟩ := h.fetch m r hc hpre
  rcases ht : i.target? with _ | t
  · -- not a jump
    have hcut : i.cut.target? = none := by
      cases i <;> first | rfl | cases ht
    have hpc' : (c.cycle (m.memory r') (m.wrap r') inp).pc = c.pc ∨
        (c.cycle (m.memory r') (m.wrap r') inp).pc = (m.wrap r').next c.pc :=
      cycle_of_not_jump (hother ht) hcut
    rcases hpc' with heq | heq
    · rwa [heq]
    · rwa [heq]
  · obtain ⟨n, hn, hdest⟩ := h.destination hc ht
    rw [cycle_jmp (hjump t n ht hdest)]
    split
    · next hcond =>
      rw [BitVec.toNat_ofNat]
      rw [← hlen] at hn
      rcases Nat.lt_or_eq_of_le hn with hlt | rfl
      · exact (Nat.mod_le _ _).trans_lt hlt
      · -- a taken jump to the end: the program fills the memory, and the address is 0
        have hfull : ¬ s.asm.len < 32 := fun hlt => hend ⟨hlen ▸ hlt, pre, i, d, sd, post, t, hc,
          hpre, ht, hlen ▸ hdest, hcond⟩
        omega
    · exact hnext

/-- A jump to the end leads to the address behind the program. -/
theorem Complete.cycle_endJump {c : Core} {inp : Inputs}
    (hend : EndJump calls c inp) :
    (c.cycle (m.memory ((Method.load s.asm).effect m r))
      (m.wrap ((Method.load s.asm).effect m r)) inp).pc.toNat = s.asm.len := by
  obtain ⟨hlt, pre, i, d, sd, post, t, hc, hpre, ht, hdest, hcond⟩ := hend
  have hdec := (h.fetch m r hc hpre).2 t _ ht hdest
  rw [cycle_jmp hdec, if_pos hcond, BitVec.toNat_ofNat, h.len_eq]
  omega

end Contained

/-- Calls within the limits whose jumps are all bound are a complete program. -/
theorem exists_complete {calls : List Call} (hadm : Session.start.AdmitsAll calls)
    (hemits : 1 ≤ emits calls ∧ emits calls ≤ 32) (hfutures : futures calls ≤ 8)
    (hbound : unboundJumps calls = 0) : ∃ s, Complete calls s := by
  obtain ⟨s, hs, hgood⟩ := Session.start_good.run hadm
    ((Nat.zero_add _).trans_le hemits.2) ((Nat.zero_add _).trans_le hfutures)
  have hlen : s.asm.len = emits calls := by
    rw [hgood.shows.len, Listing.run_length]
    exact Nat.zero_add _
  refine ⟨s, hadm, hemits.2, hfutures, hs, hlen ▸ hemits.1, ?_⟩
  rw [hgood.unresolved_eq, hbound]
  rfl

end Pio
