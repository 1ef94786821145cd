import Inmojomni.Mmio.Bus
import Mathlib.Data.List.Infix

/-!
# Two contexts that update one register

Two contexts, two cores or main code and an interrupt handler, own disjoint fields of one
register. Each sets its own field by reading the register and writing it back with the field
replaced, so a write of one context also writes what that context read of the other's field.

Whether an update survives is decided at one point: when a context makes its *last* write, the
other one may already hold an older value of the field, which it will write back (`Overwritten`).
From then on nothing changes the outcome, since the other context only copies the field around:
`Phase.seen` is what it would write back. `finished_field_iff` is the equivalence this gives for
finished runs.
-/

open Effect

namespace Mmio

/-- The register contents `x` with the field under `mask` replaced by `v`. -/
def insertField (mask v x : Word) : Word := (x &&& ~~~mask) ||| v

/-- Read the register, replace the field, write the register back. -/
def updateField (addr mask v : Word) : Firmware Unit :=
  (read32 addr).bind fun cur => write32 addr (insertField mask v cur)

/-- One update after the other. -/
def updateFields (addr mask : Word) (vs : List Word) : Firmware Unit :=
  Prog.forEach (updateField addr mask) vs

/-- The registers with both contexts on the bus. -/
def busMachine (hw : Hardware) : Machine Bool Op.Answer Regs where
  access _ := hw.access
  env _ _ := False

/-- One answer of the bus to each register access, for schedules. -/
def Hardware.answer (hw : Hardware) : (e : Op) → Regs → Option (e.Answer × Regs)
  | .read32 addr, s => some (s (register addr), s)
  | .write32 addr v, s => some ((), s.write hw addr v)
  | _, _ => none

theorem Hardware.access_of_answer {hw : Hardware} {e : Op} {s : Regs} {p : e.Answer × Regs}
    (h : hw.answer e s = some p) : hw.access e s p.1 p.2 := by
  cases e with
  | read32 addr =>
    obtain rfl := Option.some.inj h
    exact ⟨rfl, rfl⟩
  | write32 addr v =>
    obtain rfl := Option.some.inj h
    exact rfl
  | _ => cases h

/-- A schedule of accesses is a run of the contexts. -/
theorem exists_run (hw : Hardware) {c c' : Config Bool Op.Answer Unit Regs} (ts : List Bool)
    (h : Machine.play (fun _ => hw.answer) (fun (_ : Empty) _ => none) c (ts.map .thread) = some c') :
    ∃ ls, (busMachine hw).Run c ls c' := by
  have hacc : ∀ (t : Bool) (e : Op) (s : Regs) (p : e.Answer × Regs),
      hw.answer e s = some p → (busMachine hw).access t e s p.1 p.2 :=
    fun _ _ _ _ h => Hardware.access_of_answer h
  exact Machine.Reach.of_play hacc (fun (i : Empty) _ _ _ => i.elim) _ h

/-- Context `u` is at its last write to the register, of a value `w`, while the other context
is about to write a value with another field of `u`. -/
def Overwritten (addr : Word) (mask : Bool → Word) (c : Config Bool Op.Answer Unit Regs)
    (u : Bool) : Prop :=
  ∃ w, c.threads u = .op (.write32 addr w) (fun _ => .ret ()) ∧
    ∃ w' k, c.threads (!u) = .op (.write32 addr w') k ∧ w' &&& mask u ≠ w &&& mask u

/-! ### Where a context is -/

/-- Where a context is: between two updates, or between the read and the write of one. -/
inductive Phase
  | idle (vs : List Word)
  | holding (r v : Word) (vs : List Word)

namespace Phase

/-- What the context has left to run. -/
def prog (addr mask : Word) : Phase → Firmware Unit
  | idle vs => updateFields addr mask vs
  | holding r v vs => .op (.write32 addr (insertField mask v r)) fun _ => updateFields addr mask vs

/-- The updates that are still to be written. -/
def left : Phase → List Word
  | idle vs => vs
  | holding _ v vs => v :: vs

/-- The register contents as the context has seen them: what it holds, or else what it would
read. -/
def seen (reg : Word) : Phase → Word
  | idle _ => reg
  | holding r _ _ => r

end Phase

theorem updateFields_cons (addr mask v : Word) (vs : List Word) :
    updateFields addr mask (v :: vs)
      = .op (.read32 addr) fun (r : Word) => (Phase.holding r v vs).prog addr mask := rfl

section Fields

variable {hw : Hardware} {addr : Word} {mask : Bool → Word}

/-- The fields of the two contexts: disjoint, and kept by the register. -/
structure Fields (hw : Hardware) (addr : Word) (mask : Bool → Word) : Prop where
  plain : Plain addr
  status : hw.status addr = 0#32
  kept : ∀ t, mask t &&& hw.kept addr = mask t
  disjoint : mask true &&& mask false = 0#32

/-- The register keeps the fields. -/
theorem Fields.and_kept (hf : Fields hw addr mask) (t : Bool) (x : Word) :
    x &&& hw.kept addr &&& mask t = x &&& mask t := by
  rw [BitVec.and_assoc, BitVec.and_comm (hw.kept addr), hf.kept]

/-- Inserting a field and reading it back. -/
theorem insertField_own {m v : Word} (hv : v &&& ~~~m = 0#32) (x : Word) :
    insertField m v x &&& m = v := by
  have hself : ~~~m &&& m = 0#32 := (BitVec.and_comm _ _).trans (BitVec.and_not_self _)
  rw [insertField, BitVec.and_or_distrib_right, BitVec.and_of_and_not_eq_zero hv,
    BitVec.and_assoc, hself, BitVec.and_zero, BitVec.zero_or]

/-- Inserting a field leaves the other context's field. -/
theorem Fields.insertField_other (hf : Fields hw addr mask) {t : Bool} {v : Word}
    (hv : v &&& ~~~mask t = 0#32) (x : Word) :
    insertField (mask t) v x &&& mask (!t) = x &&& mask (!t) := by
  have hdis : mask (!t) &&& mask t = 0#32 := by
    cases t
    · exact hf.disjoint
    · rw [BitVec.and_comm]
      exact hf.disjoint
  have hv' : v &&& mask (!t) = 0#32 := by
    rw [← BitVec.and_of_and_not_eq_zero hv, BitVec.and_assoc, BitVec.and_comm (mask t), hdis,
      BitVec.and_zero]
  rw [insertField, BitVec.and_or_distrib_right, hv', BitVec.or_zero, BitVec.and_assoc,
    BitVec.and_comm (~~~mask t), BitVec.and_not_of_and_eq_zero hdis]

/-- An access of a context: it reads the register, or writes its next update. -/
theorem Phase.step (hf : Fields hw addr mask) {s s' : Regs} {t : Bool} {ph : Phase} {e : Op}
    {k : e.Answer → Firmware Unit} {q : e.Answer} (hph : ph.prog addr (mask t) = .op e k)
    (ha : hw.access e s q s') :
    (∃ v vs, ph = .idle (v :: vs) ∧ s' = s ∧
        k q = (Phase.holding (s addr) v vs).prog addr (mask t)) ∨
      ∃ r v vs, ph = .holding r v vs ∧
        s' = Function.update s addr (insertField (mask t) v r &&& hw.kept addr) ∧
        k q = (Phase.idle vs).prog addr (mask t) := by
  rcases ph with (_ | ⟨v, vs⟩) | ⟨r, v, vs⟩
  · cases hph
  · rw [Phase.prog, updateFields_cons] at hph
    cases hph
    obtain ⟨rfl, hq⟩ := ha
    rw [hf.plain.register_eq, hf.status, BitVec.not_zero] at hq
    refine .inl ⟨v, vs, rfl, rfl, ?_⟩
    have hq' : q = s' addr := by
      have h := (BitVec.and_allOnes (x := s' addr)).symm
      rw [h]
      exact (BitVec.and_allOnes (x := q)).symm.trans hq
    rw [hq']
  · cases hph
    refine .inr ⟨r, v, vs, rfl, ?_, rfl⟩
    rw [← Regs.write_plain hf.plain]
    exact ha

/-- Only a context that holds a value has a write as its next access. -/
theorem Phase.prog_eq_write {ph : Phase} {m w : Word} {k : Unit → Firmware Unit}
    (h : ph.prog addr m = .op (.write32 addr w) k) :
    ∃ r v vs, ph = .holding r v vs ∧ w = insertField m v r ∧ k = fun _ => updateFields addr m vs := by
  rcases ph with (_ | ⟨v, vs⟩) | ⟨r, v, vs⟩
  · cases h
  · rw [Phase.prog, updateFields_cons] at h
    cases h
  · cases h
    exact ⟨r, v, vs, rfl, rfl, rfl⟩

/-- A context is at its last write when it holds a value and has no more updates. -/
theorem Phase.eq_nil_of_last {m : Word} {vs : List Word}
    (h : (fun _ : Unit => updateFields addr m vs) = fun _ => .ret ()) : vs = [] := by
  have h' := congrFun h ()
  rcases vs with _ | ⟨v, vs⟩
  · rfl
  · rw [updateFields_cons] at h'
    cases h'

end Fields

/-! ### Runs -/

section Runs

variable {hw : Hardware} {addr : Word} {mask : Bool → Word} {vs : Bool → List Word}

/-- The contexts make their updates. -/
def updating (addr : Word) (mask : Bool → Word) (vs : Bool → List Word) (s₀ : Regs) :
    Config Bool Op.Answer Unit Regs :=
  ⟨s₀, fun t => updateFields addr (mask t) (vs t)⟩

/-- What holds after a run, with the contexts in the phases `ph`. While a context has updates
left, it cannot have been overwritten. Afterwards the other one sees the last value in its
field exactly if it was not. -/
structure Progress (addr : Word) (mask : Bool → Word) (vs : Bool → List Word)
    (ls : List (Config Bool Op.Answer Unit Regs × Label Bool)) (c : Config Bool Op.Answer Unit Regs)
    (ph : Bool → Phase) : Prop where
  threads : ∀ t, c.threads t = (ph t).prog addr (mask t)
  left : ∀ t, (ph t).left <:+ vs t
  before : ∀ u, (ph u).left ≠ [] → ∀ e ∈ ls, e.2 = .access u → ¬ Overwritten addr mask e.1 u
  after : ∀ u, (ph u).left = [] →
    ((∀ v ∈ (vs u).getLast?, (ph !u).seen (c.shared addr) &&& mask u = v) ↔
      ∀ e ∈ ls, e.2 = .access u → ¬ Overwritten addr mask e.1 u)

theorem Progress.init (s₀ : Regs) :
    Progress addr mask vs [] (updating addr mask vs s₀) fun t => .idle (vs t) where
  threads _ := rfl
  left _ := List.suffix_refl _
  before := by simp
  after u hu := by simp [show vs u = [] from hu]

section Step

variable {ls : List (Config Bool Op.Answer Unit Regs × Label Bool)}
  {c c' : Config Bool Op.Answer Unit Regs} {ph : Bool → Phase} (hf : Fields hw addr mask)
  (hvs : ∀ t, ∀ v ∈ vs t, v &&& ~~~mask t = 0#32)

include hvs

/-- The updates left are values of the context's field. -/
theorem Progress.left_value (h : Progress addr mask vs ls c ph) {t : Bool} {v : Word}
    (hv : v ∈ (ph t).left) : v &&& ~~~mask t = 0#32 :=
  hvs t v ((h.left t).subset hv)

include hf

/-- Being overwritten, by phases: the last write, while the other context holds an older value. -/
theorem Progress.overwritten_iff (h : Progress addr mask vs ls c ph) {u : Bool} :
    Overwritten addr mask c u ↔ ∃ r v r' v' vs', ph u = .holding r v [] ∧
      ph (!u) = .holding r' v' vs' ∧ r' &&& mask u ≠ v := by
  have hfield : ∀ {r v r' v' : Word} {vs' : List Word}, ph u = .holding r v [] →
      ph (!u) = .holding r' v' vs' → insertField (mask u) v r &&& mask u = v ∧
        insertField (mask !u) v' r' &&& mask u = r' &&& mask u := by
    intro r v r' v' vs' hu hu'
    have hv := h.left_value hvs (t := u) (v := v) (by simp [hu, Phase.left])
    have hv' := h.left_value hvs (t := !u) (v := v') (by simp [hu', Phase.left])
    exact ⟨insertField_own hv r, by simpa using hf.insertField_other hv' r'⟩
  constructor
  · rintro ⟨w, hw', w', k, hk, hne⟩
    rw [h.threads] at hw' hk
    obtain ⟨r, v, vs₁, hu, rfl, hlast⟩ := Phase.prog_eq_write hw'
    obtain ⟨r', v', vs', hu', rfl, -⟩ := Phase.prog_eq_write hk
    obtain rfl : vs₁ = [] := Phase.eq_nil_of_last hlast.symm
    obtain ⟨hown, hother⟩ := hfield hu hu'
    exact ⟨r, v, r', v', vs', hu, hu', by rwa [hown, hother] at hne⟩
  · rintro ⟨r, v, r', v', vs', hu, hu', hne⟩
    obtain ⟨hown, hother⟩ := hfield hu hu'
    refine ⟨_, (h.threads u).trans (by rw [hu]; rfl), _, _,
      (h.threads !u).trans (by rw [hu']; rfl), ?_⟩
    rwa [hown, hother]

omit hf hvs in
/-- The log with one more access. -/
theorem forall_log_iff {t u : Bool} :
    (∀ d ∈ ls ++ [(c, Label.access t)], d.2 = .access u → ¬ Overwritten addr mask d.1 u) ↔
      (∀ d ∈ ls, d.2 = .access u → ¬ Overwritten addr mask d.1 u) ∧
        (t = u → ¬ Overwritten addr mask c u) := by
  simp [or_imp, forall_and]

omit hf hvs in
theorem Progress.threads_update (h : Progress addr mask vs ls c ph) {t : Bool} {p : Firmware Unit}
    {ph₁ : Phase} (hp : p = ph₁.prog addr (mask t)) (u : Bool) :
    Function.update c.threads t p u = (Function.update ph t ph₁ u).prog addr (mask u) := by
  rcases eq_or_ne u t with rfl | hne
  · rw [Function.update_self, Function.update_self, hp]
  · rw [Function.update_of_ne hne, Function.update_of_ne hne]
    exact h.threads u

/-- After a read the context sees what it saw before, and has the same updates left. -/
theorem Progress.read (h : Progress addr mask vs ls c ph) {t : Bool} {v : Word} {vs₁ : List Word}
    {p : Firmware Unit} (hph : ph t = .idle (v :: vs₁))
    (hp : p = (Phase.holding (c.shared addr) v vs₁).prog addr (mask t)) :
    Progress addr mask vs (ls ++ [(c, .access t)]) ⟨c.shared, Function.update c.threads t p⟩
      (Function.update ph t (.holding (c.shared addr) v vs₁)) := by
  have hsame : ∀ u, (Function.update ph t (.holding (c.shared addr) v vs₁) u).left = (ph u).left ∧
      (Function.update ph t (.holding (c.shared addr) v vs₁) u).seen (c.shared addr)
        = (ph u).seen (c.shared addr) := by
    intro u
    rcases eq_or_ne u t with rfl | hne
    · rw [Function.update_self, hph]
      exact ⟨rfl, rfl⟩
    · rw [Function.update_of_ne hne]
      exact ⟨rfl, rfl⟩
  have hnot : ∀ u, t = u → ¬ Overwritten addr mask c u := by
    rintro u rfl hov
    obtain ⟨r, w, -, -, -, hhold, -⟩ := (h.overwritten_iff hf hvs).mp hov
    rw [hph] at hhold
    cases hhold
  refine ⟨h.threads_update hp, fun u => ?_, fun u hu => ?_, fun u hu => ?_⟩
  · rw [(hsame u).1]
    exact h.left u
  · rw [(hsame u).1] at hu
    exact forall_log_iff.mpr ⟨h.before u hu, hnot u⟩
  · rw [(hsame u).1] at hu
    rw [forall_log_iff, and_iff_left (hnot u), (hsame !u).2]
    exact h.after u hu

section Write

variable {t : Bool} {r v : Word} {vs₁ : List Word}

/-- At the last write of a context, what the other one holds decides. -/
theorem Progress.after_own (h : Progress addr mask vs ls c ph) (hph : ph t = .holding r v []) :
    (∀ w ∈ (vs t).getLast?,
      (ph !t).seen (insertField (mask t) v r &&& hw.kept addr) &&& mask t = w) ↔
      ¬ Overwritten addr mask c t := by
  have hlast : (vs t).getLast? = some v := by
    obtain ⟨front, hfront⟩ := h.left t
    rw [← hfront, hph, List.getLast?_append]
    rfl
  have hv := h.left_value hvs (t := t) (v := v) (by simp [hph, Phase.left])
  rw [h.overwritten_iff hf hvs, hlast]
  simp only [Option.mem_some_iff, forall_eq']
  rcases hother : ph (!t) with vs' | ⟨r', v', vs'⟩
  · have hfield : insertField (mask t) v r &&& hw.kept addr &&& mask t = v := by
      rw [hf.and_kept, insertField_own hv]
    refine ⟨fun _ => ?_, fun _ => hfield⟩
    rintro ⟨_, _, _, _, _, _, hhold, _⟩
    cases hhold
  · refine ⟨fun hfield => ?_, fun hno => ?_⟩
    · rintro ⟨_, _, _, _, _, hu, hhold, hne⟩
      rw [hph] at hu
      cases hu
      cases hhold
      exact hne hfield
    · by_contra hne
      exact hno ⟨r, v, r', v', vs', hph, rfl, hne⟩

/-- The write of a context copies the field of the other one. -/
theorem Progress.copies (h : Progress addr mask vs ls c ph) (hph : ph t = .holding r v vs₁)
    {u : Bool} (hne : u ≠ t) :
    insertField (mask t) v r &&& hw.kept addr &&& mask u = (ph t).seen (c.shared addr) &&& mask u := by
  have hv := h.left_value hvs (t := t) (v := v) (by simp [hph, Phase.left])
  obtain rfl : u = !t := by
    cases u <;> cases t <;> first | rfl | exact absurd rfl hne
  rw [hf.and_kept, hf.insertField_other hv, hph]
  rfl

/-- A write decides about the writer, if it was its last, and leaves what the writer sees of the
other's field. -/
theorem Progress.write (h : Progress addr mask vs ls c ph) {p : Firmware Unit}
    (hph : ph t = .holding r v vs₁) (hp : p = (Phase.idle vs₁).prog addr (mask t)) :
    Progress addr mask vs (ls ++ [(c, .access t)])
      ⟨Function.update c.shared addr (insertField (mask t) v r &&& hw.kept addr),
        Function.update c.threads t p⟩ (Function.update ph t (.idle vs₁)) := by
  have hsuffix : v :: vs₁ <:+ vs t := by
    have hl := h.left t
    rwa [hph] at hl
  have hbefore := h.before t (by simp [hph, Phase.left])
  refine ⟨h.threads_update hp, fun u => ?_, fun u hu => ?_, fun u hu => ?_⟩
  · rcases eq_or_ne u t with rfl | hne
    · rw [Function.update_self]
      exact (List.suffix_cons v vs₁).trans hsuffix
    · rw [Function.update_of_ne hne]
      exact h.left u
  · rcases eq_or_ne u t with rfl | hne
    · -- not its last write
      rw [Function.update_self] at hu
      refine forall_log_iff.mpr ⟨hbefore, fun _ hov => ?_⟩
      obtain ⟨r₁, w, -, -, -, hhold, -⟩ := (h.overwritten_iff hf hvs).mp hov
      rw [hph] at hhold
      cases hhold
      exact hu rfl
    · rw [Function.update_of_ne hne] at hu
      exact forall_log_iff.mpr ⟨h.before u hu, fun htu => absurd htu.symm hne⟩
  · have hreg : Function.update c.shared addr (insertField (mask t) v r &&& hw.kept addr) addr
        = insertField (mask t) v r &&& hw.kept addr := Function.update_self _ _ _
    rw [forall_log_iff]
    dsimp only
    rw [hreg]
    rcases eq_or_ne u t with rfl | hne
    · rw [Function.update_self] at hu
      obtain rfl : vs₁ = [] := hu
      rw [Function.update_of_ne (by simp : (!u) ≠ u), h.after_own hf hvs hph]
      exact ⟨fun hno => ⟨hbefore, fun _ => hno⟩, fun hno => hno.2 rfl⟩
    · have hbang : (!u) = t := by
        cases u <;> cases t <;> first | rfl | exact absurd rfl hne
      rw [Function.update_of_ne hne] at hu
      rw [hbang, Function.update_self, and_iff_left fun htu => absurd htu.symm hne,
        ← h.after u hu, hbang, ← h.copies hf hvs hph hne]
      rfl

end Write

/-- **Step lemma.** -/
theorem Progress.step (h : Progress addr mask vs ls c ph) {l : Label Bool}
    (hs : (busMachine hw).Step c l c') : ∃ ph', Progress addr mask vs (ls ++ [(c, l)]) c' ph' := by
  cases hs with
  | @unfold s ts t β γ body b k ht =>
    have hprog : (ph t).prog addr (mask t) = .iter body b k := (h.threads t).symm.trans ht
    rcases hph : ph t with (_ | ⟨v, vs⟩) | ⟨r, v, vs⟩ <;> rw [hph] at hprog <;> cases hprog
  | env he => exact he.elim
  | @access s s' ts t e k q ht ha =>
    rcases Phase.step hf ((h.threads t).symm.trans ht) ha with
      ⟨v, vs₁, hph, rfl, hk⟩ | ⟨r, v, vs₁, hph, rfl, hk⟩
    · exact ⟨_, h.read hf hvs hph hk⟩
    · exact ⟨_, h.write hf hvs hph hk⟩

end Step

/-- **Run lemma.** -/
theorem exists_progress (hf : Fields hw addr mask) (hvs : ∀ t, ∀ v ∈ vs t, v &&& ~~~mask t = 0#32)
    {s₀ : Regs} {ls : List (Config Bool Op.Answer Unit Regs × Label Bool)}
    {c : Config Bool Op.Answer Unit Regs}
    (hrun : (busMachine hw).Run (updating addr mask vs s₀) ls c) :
    ∃ ph, Progress addr mask vs ls c ph := by
  induction hrun with
  | nil => exact ⟨_, Progress.init s₀⟩
  | snoc _ hs ih =>
    obtain ⟨ph, h⟩ := ih
    exact h.step hf hvs hs

/-- **Which updates survive.** When both contexts have finished, the field of `u` is the last
value that `u` wrote exactly if `u` was not overwritten at that write. -/
theorem finished_field_iff (hf : Fields hw addr mask)
    (hvs : ∀ t, ∀ v ∈ vs t, v &&& ~~~mask t = 0#32) {s₀ : Regs}
    {ls : List (Config Bool Op.Answer Unit Regs × Label Bool)}
    {c : Config Bool Op.Answer Unit Regs}
    (hrun : (busMachine hw).Run (updating addr mask vs s₀) ls c)
    (hdone : ∀ t, c.threads t = .ret ()) (u : Bool) :
    (∀ v ∈ (vs u).getLast?, c.shared addr &&& mask u = v) ↔
      ∀ e ∈ ls, e.2 = .access u → ¬ Overwritten addr mask e.1 u := by
  obtain ⟨ph, h⟩ := exists_progress hf hvs hrun
  have hidle : ∀ t, ph t = .idle [] := by
    intro t
    have hprog := (h.threads t).symm.trans (hdone t)
    rcases hph : ph t with (_ | ⟨v, vs⟩) | ⟨r, v, vs⟩
    · rfl
    · rw [hph, Phase.prog, updateFields_cons] at hprog
      cases hprog
    · rw [hph] at hprog
      cases hprog
  have hafter := h.after u (by rw [hidle u]; rfl)
  rwa [hidle] at hafter

end Runs

end Mmio
