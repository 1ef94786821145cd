import Inmojomni.Pio.Fixups

/-!
# One pass with fixups computes what two passes would

A two-pass assembler first collects where every label is placed and then encodes the jumps.
For a sequence of calls that means: a jump to a handle stands for the latest place of the
handle before the jump, and failing that for the first place after it (`jumpAddr`). This
module reads that off the listing (`Listing.run_getElem?`), and so off the assembler, which
shows the listing (`Session.Good.run`): `onePass_eq_twoPass`.
-/

namespace Pio

/-! ### Where the calls place a handle -/

/-- The addresses at which the calls bind `h`, in order, when the first instruction they emit
gets address `n`. -/
def binds (h : ℤ) : ℕ → List Call → List ℕ
  | _, [] => []
  | n, .bind h' :: cs => if h' = h then n :: binds h n cs else binds h n cs
  | n, .emit _ _ _ :: cs => binds h (n + 1) cs
  | n, .sideSet _ _ _ :: cs => binds h n cs
  | n, .label :: cs => binds h n cs
  | n, .future :: cs => binds h n cs

/-- The address a jump to handle `h` stands for, emitted after `pre` and before `post`. -/
def jumpAddr (pre post : List Call) (h : ℤ) : Option ℕ :=
  (binds h 0 pre).getLast?.or (binds h (emits pre + 1) post).head?

/-- The address a jump operand stands for: a label is an address itself. -/
def destination (pre post : List Call) (t : ℤ) : Option ℕ :=
  if t < 0 then jumpAddr pre post t else some t.toNat

/-- The number of jumps to a handle that is never bound. -/
def unboundJumps (calls : List Call) : ℕ :=
  calls.countP fun c => decide (∃ t ∈ c.target?, t < 0 ∧ Call.bind t ∉ calls)

theorem binds_eq_nil_iff {h : ℤ} {cs : List Call} :
    ∀ {n : ℕ}, binds h n cs = [] ↔ Call.bind h ∉ cs := by
  induction cs with
  | nil => simp [binds]
  | cons c cs ih =>
    intro n
    cases c with
    | bind h' =>
      by_cases hh : h' = h
      · simp [binds, hh]
      · simp [binds, hh, ih, Ne.symm hh]
    | _ => simp [binds, ih]

/-! ### The listing after further calls -/

namespace Item

/-- What becomes of an item when calls follow: a waiting jump gets the first place of its
handle. -/
def later (cs : List Call) (n : ℕ) (x : Item) : Item :=
  match x.target, x.dest with
  | some t, none => { x with dest := (binds t n cs).head? }
  | _, _ => x

@[simp] theorem later_word (cs : List Call) (n : ℕ) (x : Item) : (x.later cs n).word = x.word := by
  obtain ⟨word, _ | t, _ | m⟩ := x <;> rfl

@[simp] theorem later_target (cs : List Call) (n : ℕ) (x : Item) :
    (x.later cs n).target = x.target := by
  obtain ⟨word, _ | t, _ | m⟩ := x <;> rfl

theorem later_nil (n : ℕ) (x : Item) : x.later [] n = x := by
  obtain ⟨word, _ | t, _ | m⟩ := x <;> rfl

theorem later_settle (x : Item) (h : ℤ) (cs : List Call) (n : ℕ) :
    (x.settle h n).later cs (n + emits [.bind h]) = x.later (.bind h :: cs) n := by
  obtain ⟨word, _ | t, _ | m⟩ := x
  · rfl
  · rfl
  · by_cases ht : t = h
    · subst ht
      simp [settle, waits, later, binds]
    · simp [settle, waits, later, binds, ht, Ne.symm ht, emits, Call.isEmit]
  · simp [settle, waits, later]

/-- An item waits after a `bind` if it waited for another handle. -/
theorem unresolved_settle (x : Item) (h : ℤ) (n : ℕ) (cs : List Call) :
    ((x.settle h n).unresolved && decide (∀ t ∈ (x.settle h n).target, Call.bind t ∉ cs))
      = (x.unresolved && decide (∀ t ∈ x.target, Call.bind t ∉ Call.bind h :: cs)) := by
  obtain ⟨word, _ | t, _ | m⟩ := x
  · rfl
  · rfl
  · by_cases ht : t = h
    · subst ht
      simp [settle, waits, unresolved]
    · simp [settle, waits, unresolved, ht]
  · simp [settle, waits, unresolved]

/-- The high bits of an instruction word do not depend on the address of its jump. -/
theorem extractLsb_code (x : Item) : x.code.extractLsb 15 5 = x.word.extractLsb 15 5 := by
  rw [code]
  split
  · rfl
  · have h := BitVec.ushiftRight_or x.word (Asm.toNat_operand_lt (x.dest.getD 0))
    rw [BitVec.extractLsb, BitVec.extractLsb, BitVec.extractLsb', BitVec.extractLsb',
      ← BitVec.toNat_ushiftRight, ← BitVec.toNat_ushiftRight, h]

/-- The low bits of a jump are its address. -/
theorem toNat_extractLsb_code {x : Item} (hlow : x.target.isSome → x.word.toNat % 32 = 0) {n : ℕ}
    (ht : x.target.isSome) (hn : x.dest = some n) : (x.code.extractLsb 4 0).toNat = n % 32 := by
  obtain ⟨t, ht'⟩ := Option.isSome_iff_exists.mp ht
  have h := BitVec.mod_or (w := 5) (hlow ht) (Asm.toNat_operand_lt n)
  rw [BitVec.extractLsb_toNat, code, ht', hn]
  simp only [Option.getD_some, Nat.shiftRight_zero]
  rw [h, BitVec.toNat_ofNat]
  omega

end Item

namespace Listing

variable [ShiftModel] {l : Listing}

theorem step_length (c : Call) : (l.step c).items.length = l.items.length + emits [c] := by
  cases c <;> simp [step, emits, Call.isEmit]

theorem run_cons (c : Call) (cs : List Call) : l.run (c :: cs) = (l.step c).run cs := rfl

theorem run_append (cs cs' : List Call) : l.run (cs ++ cs') = (l.run cs).run cs' :=
  List.foldl_append

theorem run_length (cs : List Call) : (l.run cs).items.length = l.items.length + emits cs := by
  induction cs generalizing l with
  | nil => rfl
  | cons c cs ih => rw [run_cons, ih, step_length, emits_cons c cs, Nat.add_assoc]

/-- A handle is where it was bound last. -/
theorem run_addr (h : ℤ) (cs : List Call) :
    (l.run cs).addr h = (binds h l.items.length cs).getLast?.or (l.addr h) := by
  induction cs generalizing l with
  | nil => rfl
  | cons c cs ih =>
    rw [run_cons, ih, step_length]
    cases c with
    | bind h' =>
      by_cases hh : h' = h
      · subst hh
        cases hb : binds h' l.items.length cs with
        | nil => simp [binds, step, emits, Call.isEmit, hb]
        | cons n ns => simp [binds, emits, Call.isEmit, hb, List.getLast?_cons]
      · simp [binds, step, emits, Call.isEmit, hh, Function.update_of_ne (Ne.symm hh)]
    | _ => rfl

/-- An item of the listing stays at its index; if it waits, it gets the first place its handle
is bound at. -/
theorem run_getElem? {n : ℕ} {x : Item} (cs : List Call) (hx : l.items[n]? = some x) :
    (l.run cs).items[n]? = some (x.later cs l.items.length) := by
  induction cs generalizing l x with
  | nil => simpa [run, Item.later_nil] using hx
  | cons c cs ih =>
    rw [run_cons]
    cases c with
    | bind h' =>
      have hx' : (l.step (.bind h')).items[n]? = some (x.settle h' l.items.length) := by
        simp [step, hx]
      rw [ih hx', step_length, Option.some.injEq]
      exact Item.later_settle x h' cs _
    | emit i d sd =>
      have hx' : (l.step (.emit i d sd)).items[n]? = some x := by
        rw [step, List.getElem?_append_left (List.getElem?_eq_some_iff.mp hx).1]
        exact hx
      rw [ih hx', step_length]
      rfl
    | _ => exact ih hx

/-- A handle has no place after a `bind` if it had none and is another one. -/
theorem step_bind_addr_iff {h t : ℤ} {cs : List Call} :
    (l.step (.bind h)).addr t = none ∧ Call.bind t ∉ cs ↔
      l.addr t = none ∧ Call.bind t ∉ Call.bind h :: cs := by
  by_cases hne : t = h
  · simp [step, hne]
  · simp [step, hne]

/-- The item of a jump waits for a handle without a place. -/
theorem unresolved_item (i : Instr) (d sd : ℤ) (cs : List Call) :
    ((l.item i d sd).unresolved && decide (∀ t ∈ (l.item i d sd).target, Call.bind t ∉ cs))
      = decide (∃ t ∈ i.target?, t < 0 ∧ l.addr t = none ∧ Call.bind t ∉ cs) := by
  cases ht : i.target? with
  | none => simp [item, Item.unresolved, ht]
  | some t =>
    by_cases hneg : t < 0
    · cases ha : l.addr t <;> simp [item, Item.unresolved, resolve, ht, hneg, ha]
    · simp [item, Item.unresolved, resolve, ht, hneg]

/-- The waiting items after further calls: those that waited for a handle the calls never
bind, and the jumps of the calls to handles that have no place before, between or after. -/
theorem countP_run (cs : List Call) :
    (l.run cs).items.countP Item.unresolved
      = l.items.countP (fun x => x.unresolved && decide (∀ t ∈ x.target, Call.bind t ∉ cs))
        + cs.countP (fun c => decide
            (∃ t ∈ c.target?, t < 0 ∧ l.addr t = none ∧ Call.bind t ∉ cs)) := by
  induction cs generalizing l with
  | nil => simp [run]
  | cons c cs ih =>
    rw [run_cons, ih]
    -- a call that is no `bind` of `t` does not matter to `t`
    have hmem : ∀ {t : ℤ}, c ≠ .bind t → (Call.bind t ∉ c :: cs ↔ Call.bind t ∉ cs) := by
      intro t hne
      simp [Ne.symm hne]
    cases c with
    | bind h =>
      rw [List.countP_cons_of_neg (by simp [Call.target?])]
      refine congrArg₂ (· + ·) ?_ (List.countP_congr fun c hc => ?_)
      · have hitems : (l.step (.bind h)).items = l.items.map (Item.settle h l.items.length) := rfl
        rw [hitems, List.countP_map]
        exact List.countP_congr fun x hx => by rw [← Item.unresolved_settle x h l.items.length]; rfl
      · simp only [step_bind_addr_iff]
    | emit i d sd =>
      have haddr : (l.step (.emit i d sd)).addr = l.addr := rfl
      have hitems : (l.step (.emit i d sd)).items = l.items ++ [l.item i d sd] := rfl
      have htgt : (Call.emit i d sd).target? = i.target? := rfl
      simp only [hitems, haddr, htgt, List.countP_append, List.countP_cons, List.countP_nil,
        unresolved_item, hmem (Call.noConfusion ·)]
      omega
    | _ => simp only [hmem (Call.noConfusion ·), step, List.countP_cons, Call.target?]; simp

/-- The item of an `emit` among the calls, once the calls after it are made. -/
theorem run_split_getElem? (pre post : List Call) (i : Instr) (d sd : ℤ) :
    (init.run (pre ++ .emit i d sd :: post)).items[emits pre]?
      = some (((init.run pre).item i d sd).later post (emits pre + 1)) := by
  have hlen : (init.run pre).items.length = emits pre := by
    rw [run_length]
    exact Nat.zero_add _
  have hitems : ((init.run pre).step (.emit i d sd)).items
      = (init.run pre).items ++ [(init.run pre).item i d sd] := rfl
  have hlast : ((init.run pre).step (.emit i d sd)).items[emits pre]?
      = some ((init.run pre).item i d sd) := by
    rw [hitems, ← hlen, List.getElem?_concat_length]
  have hlater := run_getElem? post hlast
  rwa [hitems, List.length_append, hlen, List.length_singleton, ← run_cons, ← run_append] at hlater

/-- The address of a jump is the one two passes compute, once the calls after it are made. -/
theorem later_dest (pre post : List Call) (i : Instr) (d sd : ℤ) {t : ℤ} (ht : i.target? = some t) :
    (((init.run pre).item i d sd).later post (emits pre + 1)).dest = destination pre post t := by
  have haddr : (init.run pre).addr t = (binds t 0 pre).getLast? := by
    rw [run_addr, show init.addr t = none from rfl, Option.or_none]
    rfl
  have hdest : ((init.run pre).item i d sd).dest = (init.run pre).resolve t := by
    simp only [item, ht, Option.bind_some]
  have htgt : ((init.run pre).item i d sd).target = some t := ht
  rw [destination]
  by_cases hneg : t < 0
  · rw [resolve, if_pos hneg, haddr] at hdest
    rw [if_pos hneg, jumpAddr]
    cases hb : (binds t 0 pre).getLast? with
    | none =>
      rw [hb] at hdest
      simp only [Item.later, htgt, hdest, Option.none_or]
    | some n =>
      rw [hb] at hdest
      simp only [Item.later, htgt, hdest, Option.some_or]
  · rw [resolve, if_neg hneg] at hdest
    simp only [Item.later, htgt, hdest, if_neg hneg]

end Listing

/-! ### One pass is two passes -/

/-- The program a session built is what two passes over its calls compute. A split of the
calls at an `emit` singles out the instruction at address `emits pre`; it was `emitted` when
it was appended and is `final` now. -/
structure TwoPass [ShiftModel] (calls : List Call) (s : Session) : Prop where
  len : s.asm.len = emits calls
  unresolved : s.asm.unresolved = unboundJumps calls
  word : ∀ pre i d sd post, calls = pre ++ .emit i d sd :: post →
    ∃ s₁ emitted final, Session.start.run (pre ++ [.emit i d sd]) = some s₁ ∧
      s₁.asm.code[emits pre]? = some emitted ∧ s.asm.code[emits pre]? = some final ∧
      (i.target? = none → final = emitted) ∧
      final.extractLsb 15 5 = emitted.extractLsb 15 5 ∧
      ∀ t ∈ i.target?, ∀ n ∈ destination pre post t, (final.extractLsb 4 0).toNat = n % 32

section

variable [ShiftModel]

theorem Session.AdmitsAll.of_append {pre post : List Call} :
    ∀ {s : Session}, s.AdmitsAll (pre ++ post) → s.AdmitsAll pre := by
  induction pre with
  | nil => exact fun _ => trivial
  | cons c cs ih => exact fun h => ⟨h.1, fun s' hs' => ih (h.2 s' hs')⟩

/-- The counter of pending jumps counts the jumps to a handle that is never bound. -/
theorem Session.Good.unresolved_eq {calls : List Call} {s : Session}
    (h : s.Good (Listing.init.run calls)) : s.asm.unresolved = unboundJumps calls := by
  have hcount := Listing.countP_run (l := Listing.init) calls
  rw [Asm.unresolved, h.shows.pending, hcount, unboundJumps]
  simp [Listing.init]

/-- **One-pass assembly with fixups equals two-pass assembly.** -/
theorem onePass_eq_twoPass {calls : List Call} (hadm : Session.start.AdmitsAll calls)
    (hemits : emits calls ≤ 32) (hfutures : futures calls ≤ 8) :
    ∃ s, Session.start.run calls = some s ∧ TwoPass calls s := by
  have hrun : ∀ {cs cs'}, calls = cs ++ cs' →
      ∃ s, Session.start.run cs = some s ∧ s.Good (Listing.init.run cs) := by
    rintro cs cs' rfl
    rw [emits_append] at hemits
    rw [futures_append] at hfutures
    refine Session.start_good.run hadm.of_append ?_ ?_
    · exact (Nat.zero_add _).trans_le (by omega)
    · exact (Nat.zero_add _).trans_le (by omega)
  obtain ⟨s, hs, hgood⟩ := hrun (List.append_nil calls).symm
  refine ⟨s, hs, ?_, ?_, ?_⟩
  · rw [hgood.shows.len, Listing.run_length]
    exact Nat.zero_add _
  · exact hgood.unresolved_eq
  · rintro pre i d sd post rfl
    obtain ⟨s₁, hs₁, hgood₁⟩ := hrun (List.append_cons pre (.emit i d sd) post)
    set x := (Listing.init.run pre).item i d sd
    have hx₁ : (Listing.init.run (pre ++ [.emit i d sd])).items[emits pre]? = some x := by
      have h := Listing.run_split_getElem? pre [] i d sd
      rwa [Item.later_nil] at h
    have hx' := Listing.run_split_getElem? pre post i d sd
    have hlow := hgood.shows.low _ (List.mem_of_getElem? hx')
    refine ⟨s₁, x.code, (x.later post (emits pre + 1)).code, hs₁, hgood₁.shows.code _ _ hx₁,
      hgood.shows.code _ _ hx', ?_, ?_, ?_⟩
    · intro ht
      have htgt : x.target = none := ht
      simp only [Item.code, Item.later_target, Item.later_word, htgt]
    · rw [Item.extractLsb_code, Item.extractLsb_code, Item.later_word]
    · intro t ht n hn
      refine Item.toNat_extractLsb_code hlow ?_ ?_
      · rw [Item.later_target]
        exact Option.isSome_iff_exists.mpr ⟨t, ht⟩
      · rw [Listing.later_dest pre post i d sd ht]
        exact hn

end

/-- A jump before the bind of its handle, and one after. -/
theorem onePass_eq_twoPass_forward :
    letI : ShiftModel := ⟨fun _ _ => 0⟩
    let calls : List Call := [.future, .emit (.jmp (-1)) 0 (-1), .emit (.setPins 1) 0 (-1),
      .bind (-1), .emit (.jmpXDec (-1)) 0 (-1)]
    ∃ s, Session.start.run calls = some s ∧ TwoPass calls s :=
  letI : ShiftModel := ⟨fun _ _ => 0⟩
  onePass_eq_twoPass (by simp [Session.AdmitsAll, Session.Admits, Session.step, Session.start,
    Instr.target?, Asm.future, Asm.init]) (by decide) (by decide)

end Pio
