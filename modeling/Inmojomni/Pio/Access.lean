import Inmojomni.Pio.Fixups

/-!
# What the assembler accesses

Nothing in `Asm` tests an index or the count of a shift, and firmware is built without bounds
checks. `Call.accesses` lists the indices a call uses on `code`, `_fixup` and `_fw_addr` and
the counts it shifts by, in the order of the source. They stay inside the arrays exactly when
every call keeps to the limits of the object (`accesses_inBounds_iff`): fewer than 32 instructions
before another one is emitted, five delay bits for the side-set that is declared, and one of
the eight handles for `bind` and for a jump to a negative target.
-/

namespace Pio

/-- An index into one of the arrays of an `Asm`, or the count of a shift. -/
inductive Access
  | code (i : ℤ)
  | fixup (i : ℤ)
  | fwAddr (i : ℤ)
  | shift (count : ℤ)
  deriving DecidableEq

/-- The index is within the bounds of its array; the count is not negative. -/
def Access.Ok : Access → Prop
  | code i | fixup i => 0 ≤ i ∧ i < 32
  | fwAddr i => 0 ≤ i ∧ i < 8
  | shift count => 0 ≤ count

instance : DecidablePred Access.Ok := fun x => by
  cases x <;> unfold Access.Ok <;> infer_instance

namespace Asm

/-- `bind`: the address of the handle, then the fixup of every instruction. -/
def bindAccesses (a : Asm) (handle : ℤ) : List Access :=
  .fwAddr (-handle - 1) :: (List.range a.len).flatMap fun i : ℕ =>
    .fixup i ::
      (if ((a.fixup[i]?.getD 0 : ℕ) : ℤ) = -handle - 1 + 1 then [.code i, .code i, .fixup i] else [])

/-- `_emit`: the shifts of the delay/side-set field, then the place of the word. -/
def emitAccesses (a : Asm) (side : ℤ) : List Access :=
  .shift (5 - sBits a.sideCount a.sideOpt) ::
    ((if 0 < a.sideCount ∧ 0 ≤ side then
      [.shift a.sideCount, .shift (if a.sideOpt then 4 - a.sideCount else 5 - a.sideCount)]
    else []) ++ [.shift 8, .code a.len])

/-- `_jmp_target`: the address of a handle, and a fixup if it has none. -/
def jmpTargetAccesses (a : Asm) (target : ℤ) : List Access :=
  if target < 0 then
    .fwAddr (-target - 1) ::
      match fwIndex target with
      | some id => if 0 ≤ a.fwAddr.get id then [.fwAddr (-target - 1)] else [.fixup a.len]
      | none => []
  else []

end Asm

/-- The shift in the word of the instruction itself. -/
def Instr.accesses : Instr → List Access
  | waitGpio _ _ => [.shift 7]
  | _ => []

/-- What a call accesses, in the order of the source. -/
def Call.accesses (a : Asm) : Call → List Access
  | sideSet _ _ _ | label | future => []
  | bind h => a.bindAccesses h
  | emit i _ side =>
    (match i.target? with
      | some t => a.jmpTargetAccesses t
      | none => []) ++ i.accesses ++ a.emitAccesses side

/-- What a sequence of calls accesses. -/
def Session.accesses [ShiftModel] (s : Session) : List Call → List Access
  | [] => []
  | c :: cs =>
    c.accesses s.asm ++
      match s.step c with
      | some s' => s'.accesses cs
      | none => []

/-! ### The limits of the object -/

/-- The side-set declaration in force: its width, and whether it is optional. -/
def sideSetOf (cfg : ℤ × Bool) (calls : List Call) : ℤ × Bool :=
  calls.foldl (fun cfg c => match c with
    | .sideSet count optional _ => (Int.land count 0x7, optional)
    | _ => cfg) cfg

/-- The call keeps to the limits, where `len` instructions are emitted and `cfg` is declared. -/
def Call.Fits (len : ℕ) (cfg : ℤ × Bool) : Call → Prop
  | bind h => -8 ≤ h ∧ h < 0
  | emit i _ _ => len < 32 ∧ Asm.sBits cfg.1 cfg.2 ≤ 5 ∧ ∀ t ∈ i.target?, -8 ≤ t
  | _ => True

namespace Asm

variable {a : Asm}

theorem bindAccesses_ok_iff {handle : ℤ} :
    (∀ x ∈ a.bindAccesses handle, x.Ok) ↔ -8 ≤ handle ∧ handle < 0 := by
  rw [bindAccesses, List.forall_mem_cons]
  have hid : (Access.fwAddr (-handle - 1)).Ok ↔ -8 ≤ handle ∧ handle < 0 := by
    change 0 ≤ -handle - 1 ∧ -handle - 1 < 8 ↔ _
    omega
  rw [hid, and_iff_left_iff_imp]
  intro _ x hx
  -- the loop runs over the instructions there are
  obtain ⟨i, hi, hx⟩ := List.mem_flatMap.mp hx
  have hlt := List.mem_range.mp hi
  have hle := a.len_le
  have hin : (0 : ℤ) ≤ i ∧ (i : ℤ) < 32 := by omega
  rcases List.mem_cons.mp hx with rfl | hx
  · exact hin
  split at hx
  · simp only [List.mem_cons, List.not_mem_nil, or_false] at hx
    rcases hx with rfl | rfl | rfl <;> exact hin
  · exact absurd hx List.not_mem_nil

theorem emitAccesses_ok_iff (hcount : 0 ≤ a.sideCount) {side : ℤ} :
    (∀ x ∈ a.emitAccesses side, x.Ok) ↔ a.len < 32 ∧ sBits a.sideCount a.sideOpt ≤ 5 := by
  have hbits : (Access.shift (5 - sBits a.sideCount a.sideOpt)).Ok ↔
      sBits a.sideCount a.sideOpt ≤ 5 := by
    change 0 ≤ 5 - sBits a.sideCount a.sideOpt ↔ _
    omega
  have hlast : (∀ x ∈ [Access.shift 8, Access.code a.len], x.Ok) ↔ a.len < 32 := by
    rw [List.forall_mem_cons, List.forall_mem_singleton]
    change (0 : ℤ) ≤ 8 ∧ (0 : ℤ) ≤ a.len ∧ (a.len : ℤ) < 32 ↔ _
    omega
  rw [emitAccesses, List.forall_mem_cons, List.forall_mem_append, hbits, hlast]
  constructor
  · rintro ⟨hle, -, hlen⟩
    exact ⟨hlen, hle⟩
  · rintro ⟨hlen, hle⟩
    refine ⟨hle, fun x hx => ?_, hlen⟩
    -- the shifts of the side-set bits have what is left of the five
    rw [sBits] at hle
    split at hx
    · rw [List.mem_pair] at hx
      rcases hx with rfl | rfl
      · exact hcount
      · change 0 ≤ (if a.sideOpt then 4 - a.sideCount else 5 - a.sideCount)
        by_cases hopt : a.sideOpt = true
        · rw [if_pos hopt] at hle ⊢
          omega
        · rw [if_neg hopt] at hle ⊢
          omega
    · exact absurd hx List.not_mem_nil

theorem jmpTargetAccesses_ok_iff (hlen : a.len < 32) {target : ℤ} :
    (∀ x ∈ a.jmpTargetAccesses target, x.Ok) ↔ -8 ≤ target := by
  rw [jmpTargetAccesses]
  split
  · next hneg =>
    have hid : (Access.fwAddr (-target - 1)).Ok ↔ -8 ≤ target := by
      change 0 ≤ -target - 1 ∧ -target - 1 < 8 ↔ _
      omega
    rw [List.forall_mem_cons, hid, and_iff_left_iff_imp]
    intro hge x hx
    obtain ⟨id, hfw, -⟩ := exists_fwIndex hneg hge
    rw [hfw] at hx
    dsimp only at hx
    split at hx
    · rw [List.mem_singleton.mp hx]
      exact hid.mpr hge
    · rw [List.mem_singleton.mp hx]
      change (0 : ℤ) ≤ a.len ∧ (a.len : ℤ) < 32
      omega
  · next hneg => exact iff_of_true (fun x hx => absurd hx List.not_mem_nil) (by omega)

end Asm

/-- The accesses of a call are in bounds when it keeps to the limits. -/
theorem Call.accesses_ok_iff {a : Asm} (hcount : 0 ≤ a.sideCount) {c : Call} :
    (∀ x ∈ c.accesses a, x.Ok) ↔ c.Fits a.len (a.sideCount, a.sideOpt) := by
  cases c with
  | sideSet | label | future => exact iff_of_true (fun x hx => absurd hx List.not_mem_nil) trivial
  | bind h => exact Asm.bindAccesses_ok_iff
  | emit i d side =>
    have hword : ∀ x ∈ i.accesses, x.Ok := by
      cases i <;> simp [Instr.accesses, Access.Ok]
    rw [accesses, List.forall_mem_append, List.forall_mem_append, Asm.emitAccesses_ok_iff hcount,
      and_iff_left hword, Fits]
    constructor
    · rintro ⟨htarget, hlen, hle⟩
      refine ⟨hlen, hle, fun t ht => ?_⟩
      rw [Option.mem_def.mp ht] at htarget
      exact (Asm.jmpTargetAccesses_ok_iff hlen).mp htarget
    · rintro ⟨hlen, hle, htarget⟩
      refine ⟨?_, hlen, hle⟩
      cases ht : i.target? with
      | none => exact fun x hx => absurd hx List.not_mem_nil
      | some t => exact (Asm.jmpTargetAccesses_ok_iff hlen).mpr (htarget t ht)

/-! ### Calls that keep to the limits -/

namespace Asm

variable {a : Asm}

/-- The loop of `bind` leaves the length and the side-set declaration alone. -/
theorem foldl_patch_frame (id : Fin 8) (is : List ℕ) :
    (is.foldl (patch id) a).len = a.len ∧ (is.foldl (patch id) a).sideCount = a.sideCount ∧
      (is.foldl (patch id) a).sideOpt = a.sideOpt := by
  induction is generalizing a with
  | nil => exact ⟨rfl, rfl, rfl⟩
  | cons i is ih =>
    have hround : (patch id a i).len = a.len ∧ (patch id a i).sideCount = a.sideCount ∧
        (patch id a i).sideOpt = a.sideOpt := by
      rw [patch]
      split <;> exact ⟨rfl, rfl, rfl⟩
    obtain ⟨hlen, hcount, hopt⟩ := ih (a := patch id a i)
    exact ⟨hlen.trans hround.1, hcount.trans hround.2.1, hopt.trans hround.2.2⟩

theorem exists_jmpTarget (hlen : a.len < 32) {target : ℤ} (ht : -8 ≤ target) :
    ∃ a' w, a.jmpTarget target = some (a', w) ∧ a'.len = a.len ∧ a'.sideCount = a.sideCount ∧
      a'.sideOpt = a.sideOpt := by
  rw [jmpTarget]
  by_cases hneg : target < 0
  · obtain ⟨id, hid, -⟩ := exists_fwIndex hneg ht
    rw [if_pos hneg, hid]
    by_cases hbound : 0 ≤ a.fwAddr[id]
    · exact ⟨a, _, if_pos hbound, rfl, rfl, rfl⟩
    · exact ⟨_, _, (if_neg hbound).trans (dif_pos hlen), rfl, rfl, rfl⟩
  · rw [if_neg hneg]
    exact ⟨a, _, rfl, rfl, rfl, rfl⟩

end Asm

variable [ShiftModel]

theorem Session.step_bind {s : Session} {handle : ℤ} {a : Asm} (h : s.asm.bind handle = some a) :
    s.step (.bind handle) = some { s with asm := a } := by
  rw [step, h]
  rfl

theorem Session.step_emit {s : Session} {i : Instr} {d side : ℤ} {a : Asm}
    (h : i.run d side s.asm = some a) : s.step (.emit i d side) = some { s with asm := a } := by
  rw [step, h]
  rfl

/-- **Step lemma.** A call that keeps to the limits is defined. -/
theorem Session.exists_step {s : Session} {c : Call}
    (h : c.Fits s.asm.len (s.asm.sideCount, s.asm.sideOpt)) :
    ∃ s', s.step c = some s' ∧ s'.asm.len = s.asm.len + emits [c] ∧
      (s'.asm.sideCount, s'.asm.sideOpt) = sideSetOf (s.asm.sideCount, s.asm.sideOpt) [c] := by
  cases c with
  | sideSet | label | future => exact ⟨_, rfl, rfl, rfl⟩
  | bind handle =>
    obtain ⟨id, hid, -⟩ := Asm.exists_fwIndex h.2 h.1
    have hbind : s.asm.bind handle = some ((List.range s.asm.len).foldl (Asm.patch id)
        { s.asm with fwAddr := s.asm.fwAddr.set id (s.asm.len : ℤ) }) := by
      rw [Asm.bind, hid]
      rfl
    obtain ⟨hlen, hcount, hopt⟩ := Asm.foldl_patch_frame
      (a := { s.asm with fwAddr := s.asm.fwAddr.set id (s.asm.len : ℤ) }) id (List.range s.asm.len)
    refine ⟨_, step_bind hbind, hlen, ?_⟩
    rw [hcount, hopt]
    rfl
  | emit i d side =>
    obtain ⟨hlen, -, htarget⟩ := h
    cases ht : i.target? with
    | none =>
      have hrun := (Instr.run_of_target_eq_none ht d side s.asm).trans (Asm.emit_eq hlen _ _ _)
      exact ⟨_, step_emit hrun, rfl, rfl⟩
    | some t =>
      obtain ⟨a', w, hjmp, hlen', hcount, hopt⟩ := Asm.exists_jmpTarget hlen (htarget t ht)
      have hrun := Instr.run_of_target_eq_some ht d side s.asm
      rw [Asm.emitJmp, hjmp] at hrun
      have hemit := hrun.trans (Asm.emit_eq (hlen'.trans_lt hlen) _ _ _)
      refine ⟨_, step_emit hemit, congrArg (· + 1) hlen', ?_⟩
      rw [hcount, hopt]
      rfl

omit [ShiftModel] in
/-- The declared width is never negative. -/
theorem sideSetOf_nonneg {cfg : ℤ × Bool} (h : 0 ≤ cfg.1) (c : Call) :
    0 ≤ (sideSetOf cfg [c]).1 := by
  cases c with
  | sideSet count optional pindirs =>
    change 0 ≤ Int.land count 0x7
    rw [show (0x7 : ℤ) = 2 ^ 3 - 1 by norm_num, Int.land_two_pow_sub_one]
    exact Int.emod_nonneg _ (by norm_num)
  | label | future | bind | emit => exact h

/-- **Run lemma.** The accesses of the calls are in bounds when each call keeps to the limits
where it is made. -/
theorem Session.accesses_ok_iff {calls : List Call} : ∀ {s : Session}, 0 ≤ s.asm.sideCount →
    ((∀ x ∈ s.accesses calls, x.Ok) ↔ ∀ pre c post, calls = pre ++ c :: post →
      c.Fits (s.asm.len + emits pre) (sideSetOf (s.asm.sideCount, s.asm.sideOpt) pre)) := by
  induction calls with
  | nil =>
    intro s _
    refine iff_of_true (fun x hx => absurd hx List.not_mem_nil) fun pre c post h => ?_
    exact absurd h.symm (List.append_ne_nil_of_right_ne_nil _ (List.cons_ne_nil _ _))
  | cons c cs ih =>
    intro s hcount
    rw [accesses, List.forall_mem_append, Call.accesses_ok_iff hcount]
    -- the first call, and the calls after it in the state it leaves
    have hsplit : (∀ pre c' post, c :: cs = pre ++ c' :: post →
        c'.Fits (s.asm.len + emits pre) (sideSetOf (s.asm.sideCount, s.asm.sideOpt) pre)) ↔
        c.Fits s.asm.len (s.asm.sideCount, s.asm.sideOpt) ∧
          ∀ pre c' post, cs = pre ++ c' :: post →
            c'.Fits (s.asm.len + emits [c] + emits pre)
              (sideSetOf (sideSetOf (s.asm.sideCount, s.asm.sideOpt) [c]) pre) := by
      constructor
      · intro h
        refine ⟨h [] c cs rfl, fun pre c' post heq => ?_⟩
        have hfits := h (c :: pre) c' post (by rw [heq]; rfl)
        rwa [emits_cons, ← Nat.add_assoc] at hfits
      · rintro ⟨hc, hcs⟩ pre c' post heq
        cases pre with
        | nil =>
          obtain ⟨rfl, -⟩ := List.cons.inj heq
          exact hc
        | cons b pre =>
          obtain ⟨rfl, hrest⟩ := List.cons.inj heq
          have hfits := hcs pre c' post hrest
          rwa [Nat.add_assoc, ← emits_cons] at hfits
    rw [hsplit]
    refine and_congr_right fun hc => ?_
    obtain ⟨s', hs', hlen, hcfg⟩ := s.exists_step hc
    rw [hs', ← hlen, ← hcfg]
    refine ih ?_
    have hnonneg := @sideSetOf_nonneg (s.asm.sideCount, s.asm.sideOpt) hcount c
    rwa [← hcfg] at hnonneg

/-- Every index is within its array and no shift count negative exactly when every call keeps
to the limits. -/
theorem accesses_inBounds_iff (calls : List Call) :
    (∀ x ∈ Session.start.accesses calls, x.Ok) ↔ ∀ pre c post, calls = pre ++ c :: post →
      c.Fits (emits pre) (sideSetOf (0, false) pre) := by
  have h := @Session.accesses_ok_iff _ calls Session.start le_rfl
  simpa only [Session.start, Asm.init, Nat.zero_add] using h

omit [ShiftModel] in
/-- A 33rd instruction, a ninth handle, a handle that is none, and a side-set of seven bits. -/
theorem accesses_outside :
    letI : ShiftModel := ⟨fun _ _ => 0⟩
    .code 32 ∈ Session.start.accesses (List.replicate 33 (.emit .nop 0 (-1))) ∧
      .fwAddr 8 ∈ Session.start.accesses (List.replicate 9 .future ++ [.bind (-9)]) ∧
      .fwAddr (-1) ∈ Session.start.accesses [.bind 0] ∧
      .shift (-2) ∈ Session.start.accesses [.sideSet 7 false false, .emit .nop 0 (-1)] ∧
      ∀ x ∈ [Access.code 32, .fwAddr 8, .fwAddr (-1), .shift (-2)], ¬x.Ok := by
  decide

end Pio
