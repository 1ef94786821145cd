import Mathlib.Data.List.Basic
import Mathlib.Logic.Relation

/-!
# Assembly listings

A listing is a list of lines, each a label or an instruction of some instruction set. `exec` says
what an instruction does to the state of the processor and where control goes after it. Where a line
is in memory does not matter: the program counter is the index of a line.

An instruction without an outcome ends the run. Where a run ends is determined (`Stops.unique`), and
a loop that comes back to the same line goes through as many rounds as there are (`Steps.rounds`).
-/

namespace Listing

variable {L I σ : Type}

inductive Line (L I : Type)
  | label (l : L)
  | instr (i : I)

/-- Where control goes: to the next line, or to a label. -/
inductive Next (L : Type)
  | on
  | goto (l : L)

section Run

variable [DecidableEq L] (exec : I → σ → Option (σ × Next L)) (code : List (Line L I))

def Line.isLabel (l : L) : Line L I → Bool
  | .label l' => l' = l
  | .instr _ => false

/-- The index of a label. -/
def target (l : L) : ℕ := code.findIdx (Line.isLabel l)

def Next.index (pc : ℕ) : Next L → ℕ
  | .on => pc + 1
  | .goto l => target code l

/-- One line, if there is one and it has an outcome. -/
def step (c : ℕ × σ) : Option (ℕ × σ) :=
  match code[c.1]? with
  | none => none
  | some (.label _) => some (c.1 + 1, c.2)
  | some (.instr i) => (exec i c.2).map fun p => (p.2.index code c.1, p.1)

/-- Some steps lead from one state to the other. -/
def Steps : ℕ × σ → ℕ × σ → Prop := Relation.ReflTransGen fun c c' => step exec code c = some c'

/-- The run ends there. -/
def Stops (c c' : ℕ × σ) : Prop := Steps exec code c c' ∧ step exec code c' = none

variable {exec code} {pc : ℕ} {s s' : σ} {i : I} {l : L} {c d e : ℕ × σ}

theorem Steps.trans (h : Steps exec code c d) (h' : Steps exec code d e) : Steps exec code c e :=
  Relation.ReflTransGen.trans h h'

theorem steps_label (h : code[pc]? = some (.label l)) : Steps exec code (pc, s) (pc + 1, s) := by
  refine .single ?_
  rw [step, h]

theorem steps_on (h : code[pc]? = some (.instr i)) (he : exec i s = some (s', .on)) :
    Steps exec code (pc, s) (pc + 1, s') := by
  refine .single ?_
  rw [step, h]
  dsimp only
  rw [he]
  rfl

theorem steps_goto {pc' : ℕ} (h : code[pc]? = some (.instr i))
    (he : exec i s = some (s', .goto l)) (hl : target code l = pc') :
    Steps exec code (pc, s) (pc', s') := by
  subst hl
  refine .single ?_
  rw [step, h]
  dsimp only
  rw [he]
  rfl

/-- A run ends in one state. -/
theorem Stops.unique (h : Stops exec code c d) (h' : Stops exec code c e) : e = d := by
  have hdet : Relator.RightUnique fun c c' => step exec code c = some c' :=
    fun _ _ _ hb hc => Option.some.inj (hb.symm.trans hc)
  have hend : ∀ {x y}, step exec code x = none → Steps exec code x y → y = x := fun hx hxy => by
    rcases Relation.ReflTransGen.cases_head hxy with heq | ⟨z, hz, -⟩
    · exact heq.symm
    · exact nomatch hx.symm.trans hz
  rcases Relation.ReflTransGen.total_of_right_unique hdet h.1 h'.1 with hde | hed
  · exact hend h.2 hde
  · exact (hend h'.2 hed).symm

theorem Stops.iff (h : Stops exec code c d) : Stops exec code c e ↔ e = d :=
  ⟨h.unique, fun he => he ▸ h⟩

/-- **Loops.** Rounds that begin and end at the same line, each carrying the invariant on. -/
theorem Steps.rounds {P : ℕ → σ → Prop} {n : ℕ}
    (hround : ∀ k < n, ∀ s, P k s → ∃ s', Steps exec code (pc, s) (pc, s') ∧ P (k + 1) s')
    (h : P 0 s) : ∃ s', Steps exec code (pc, s) (pc, s') ∧ P n s' := by
  induction n with
  | zero => exact ⟨s, .refl, h⟩
  | succ n ih =>
    obtain ⟨s₁, h₁, hs₁⟩ := ih fun k hk => hround k (Nat.lt_succ_of_lt hk)
    obtain ⟨s₂, h₂, hs₂⟩ := hround n (Nat.lt_succ_self n) s₁ hs₁
    exact ⟨s₂, h₁.trans h₂, hs₂⟩

/-- A run that comes back to a line does not end. -/
theorem Steps.not_stops (h : Steps exec code c d)
    (hloop : Relation.TransGen (fun c c' => step exec code c = some c') d d) :
    ¬ Stops exec code c e := by
  have hdet : Relator.RightUnique fun c c' => step exec code c = some c' :=
    fun _ _ _ hb hc => Option.some.inj (hb.symm.trans hc)
  obtain ⟨z, hz, hzd⟩ := Relation.TransGen.head'_iff.mp hloop
  -- wherever the run gets to behind `d`, it gets to `d` again
  have hback : ∀ {x}, Steps exec code d x → Steps exec code x d := fun hx => by
    induction hx with
    | refl => exact .refl
    | tail _ hstep ih =>
      rcases Relation.ReflTransGen.cases_head ih with rfl | ⟨y, hy, hyd⟩
      · exact hdet hz hstep ▸ hzd
      · exact hdet hy hstep ▸ hyd
  rintro ⟨hce, hend⟩
  have hed : Steps exec code e d :=
    (Relation.ReflTransGen.total_of_right_unique hdet h hce).elim hback id
  rcases Relation.ReflTransGen.cases_head hed with rfl | ⟨x, hx, -⟩
  · exact nomatch hend.symm.trans hz
  · exact nomatch hend.symm.trans hx

end Run

/-! ### Straight lines -/

section Straight

variable [DecidableEq L] (exec : I → σ → Option (σ × Next L))

/-- Instructions that follow each other, none of which goes elsewhere. -/
def straight : List I → σ → Option σ
  | [], s => some s
  | i :: is, s =>
    match exec i s with
    | some (s', .on) => straight is s'
    | _ => none

variable {exec} {code : List (Line L I)} {pc : ℕ} {s s' : σ}

omit [DecidableEq L] in
theorem straight_append (is js : List I) (s : σ) :
    straight exec (is ++ js) s = (straight exec is s).bind (straight exec js) := by
  induction is generalizing s with
  | nil => rfl
  | cons i is ih =>
    rw [List.cons_append, straight, straight]
    rcases exec i s with _ | ⟨s₁, _ | l⟩
    · rfl
    · exact ih s₁
    · rfl

theorem steps_straight {is : List I} (hat : is.map .instr <+: code.drop pc)
    (h : straight exec is s = some s') : Steps exec code (pc, s) (pc + is.length, s') := by
  induction is generalizing pc s with
  | nil =>
    obtain rfl := Option.some.inj h
    exact .refl
  | cons i is ih =>
    rw [straight] at h
    obtain ⟨rest, hrest⟩ := hat
    have hhere : code[pc]? = some (.instr i) := by
      rw [← List.head?_drop, ← hrest]
      rfl
    have hbehind : is.map .instr <+: code.drop (pc + 1) := by
      refine ⟨rest, ?_⟩
      rw [← List.tail_drop, ← hrest]
      rfl
    rcases hexec : exec i s with _ | ⟨s₁, _ | l⟩
    · rw [hexec] at h
      cases h
    · rw [hexec] at h
      have hsteps := (steps_on hhere hexec).trans (ih hbehind h)
      rwa [Nat.add_assoc, Nat.add_comm 1] at hsteps
    · rw [hexec] at h
      cases h

end Straight

end Listing
