import Inmojomni.Effect.Prog

/-!
# What a program can touch

`Prog.Only P p`: every operation that `p` can make satisfies `P`, whatever the answers. Where each
such operation keeps a predicate on the state, so do whole executions (`Exec.keeps`) and all runs
side by side with others like it (`Machine.Reach.keeps`). This settles what a program leaves alone
without a look at its control flow.

`Prog.Straight p`: there is no loop in `p`, so it comes to its end wherever every operation has an
answer (`exists_exec`).
-/

namespace Effect

variable {E : Type} {R : E → Type} {α β γ σ : Type}

namespace Prog

/-- Every operation that the program can make satisfies `P`. -/
def Only (P : E → Prop) : {α : Type} → Prog R α → Prop
  | _, .ret _ => True
  | _, .op e k => P e ∧ ∀ r, Only P (k r)
  | _, .iter body _ k => (∀ b, Only P (body b)) ∧ ∀ c, Only P (k c)

/-- The program has no loop. -/
def Straight : {α : Type} → Prog R α → Prop
  | _, .ret _ => True
  | _, .op _ k => ∀ r, Straight (k r)
  | _, .iter .. => False

section Only

variable {P : E → Prop}

@[simp] theorem only_ret (a : α) : (ret a : Prog R α).Only P := trivial

@[simp] theorem only_op {e : E} {k : R e → Prog R α} :
    (op e k).Only P ↔ P e ∧ ∀ r, (k r).Only P := Iff.rfl

@[simp] theorem only_call {e : E} : (call e : Prog R (R e)).Only P ↔ P e :=
  ⟨fun h => h.1, fun h => ⟨h, fun _ => trivial⟩⟩

@[simp] theorem only_iter {body : β → Prog R (β ⊕ γ)} {b : β} {k : γ → Prog R α} :
    (iter body b k).Only P ↔ (∀ b, (body b).Only P) ∧ ∀ c, (k c).Only P := Iff.rfl

@[simp] theorem only_ite {c : Prop} [Decidable c] {p q : Prog R α} :
    (if c then p else q).Only P ↔ (c → p.Only P) ∧ (¬ c → q.Only P) := by
  split <;> simp_all

theorem Only.bind {p : Prog R α} {f : α → Prog R β} (hp : p.Only P) (hf : ∀ a, (f a).Only P) :
    (p.bind f).Only P := by
  induction p with
  | ret a => exact hf a
  | op e k ih => exact ⟨hp.1, fun r => ih r (hp.2 r) hf⟩
  | iter body b k _ ih => exact ⟨hp.1, fun c => ih c (hp.2 c) hf⟩

theorem Only.unfold {body : β → Prog R (β ⊕ γ)} {b : β} {k : γ → Prog R α}
    (h : (iter body b k).Only P) : (unfold body k b).Only P := by
  refine (h.1 b).bind fun r => ?_
  rcases r with b' | c
  · exact h
  · exact h.2 c

theorem Only.poll {e : E} {done : R e → Bool} (h : P e) : (poll e done).Only P :=
  ⟨fun _ => ⟨h, fun _ => trivial⟩, fun _ => trivial⟩

theorem Only.forEach {f : β → Prog R Unit} {xs : List β} (h : ∀ x ∈ xs, (f x).Only P) :
    (forEach f xs).Only P := by
  induction xs with
  | nil => trivial
  | cons x xs ih =>
    obtain ⟨hx, hxs⟩ := List.forall_mem_cons.mp h
    exact hx.bind fun _ => ih hxs

theorem Only.forRange {f : ℕ → Prog R Unit} {start n : ℕ}
    (h : ∀ i, start ≤ i → i < start + n → (f i).Only P) : (forRange f start n).Only P := by
  induction n generalizing start with
  | zero => trivial
  | succ n ih =>
    refine (h start (Nat.le_refl _) (by omega)).bind fun _ => ih fun i hle hlt => ?_
    exact h i (by omega) (by omega)

theorem Only.mono {Q : E → Prop} (hPQ : ∀ e, P e → Q e) {p : Prog R α} (h : p.Only P) :
    p.Only Q := by
  induction p with
  | ret a => trivial
  | op e k ih => exact ⟨hPQ e h.1, fun r => ih r (h.2 r)⟩
  | iter body b k ihb ih => exact ⟨fun b => ihb b (h.1 b), fun c => ih c (h.2 c)⟩

end Only

section Straight

@[simp] theorem straight_ret (a : α) : (ret a : Prog R α).Straight := trivial

@[simp] theorem straight_op {e : E} {k : R e → Prog R α} :
    (op e k).Straight ↔ ∀ r, (k r).Straight := Iff.rfl

@[simp] theorem straight_call {e : E} : (call e : Prog R (R e)).Straight := fun _ => trivial

theorem Straight.bind {p : Prog R α} {f : α → Prog R β} (hp : p.Straight)
    (hf : ∀ a, (f a).Straight) : (p.bind f).Straight := by
  induction p with
  | ret a => exact hf a
  | op e k ih => exact fun r => ih r (hp r) hf
  | iter body b k => exact hp.elim

end Straight

end Prog

/-! ### Executions -/

section Exec

variable {access : (e : E) → σ → R e → σ → Prop} {I : σ → Prop}

/-- Whatever the operation answers, it keeps `I`. -/
def Keeps (access : (e : E) → σ → R e → σ → Prop) (I : σ → Prop) (e : E) : Prop :=
  ∀ s r s', access e s r s' → I s → I s'

/-- **Frame rule.** A program of operations that keep `I` keeps `I`. -/
theorem Exec.keeps {p : Prog R α} {s s' : σ} {a : α} (h : Exec access p s a s')
    (hp : p.Only (Keeps access I)) (hI : I s) : I s' := by
  induction h with
  | ret a s => exact hI
  | op he hk ih => exact ih (hp.2 _) (hp.1 _ _ _ he hI)
  | iter h ih => exact ih (Prog.Only.unfold hp) hI

/-- A program without loops comes to its end, when every operation has an answer. -/
theorem exists_exec (htotal : ∀ e s, ∃ r s', access e s r s') {p : Prog R α} (h : p.Straight)
    (s : σ) : ∃ a s', Exec access p s a s' := by
  induction p generalizing s with
  | ret a => exact ⟨a, s, .ret _ _⟩
  | op e k ih =>
    obtain ⟨r, s', he⟩ := htotal e s
    obtain ⟨a, s'', hk⟩ := ih r (h r) s'
    exact ⟨a, s'', .op he hk⟩
  | iter body b k => exact h.elim

/-- A sequence of programs that all come to their end does so. -/
theorem exists_exec_forEach {f : β → Prog R Unit} {xs : List β}
    (h : ∀ x ∈ xs, ∀ s, ∃ a s', Exec access (f x) s a s') (s : σ) :
    ∃ s', Exec access (Prog.forEach f xs) s () s' := by
  induction xs generalizing s with
  | nil => exact ⟨s, .ret _ _⟩
  | cons x xs ih =>
    obtain ⟨hx, hxs⟩ := List.forall_mem_cons.mp h
    obtain ⟨a, s', hs'⟩ := hx s
    obtain ⟨s'', hs''⟩ := ih hxs s'
    exact ⟨s'', exec_bind.mpr ⟨a, s', hs', hs''⟩⟩

end Exec

/-! ### Runs -/

section Reach

variable {T : Type} [DecidableEq T] {M : Machine T R σ} {I : σ → Prop}

/-- **Frame rule, side by side.** Threads whose operations all keep `I`, in an environment that
keeps it, keep `I` at every moment. -/
theorem Machine.Reach.keeps {c₀ c : Config T R α σ} (h : M.Reach c₀ c)
    (hp : ∀ t, (c₀.threads t).Only (Keeps (M.access t) I)) (henv : ∀ s s', M.env s s' → I s → I s')
    (hI : I c₀.shared) : I c.shared := by
  refine (h.induction (P := fun c => (∀ t, (c.threads t).Only (Keeps (M.access t) I)) ∧
    I c.shared) ⟨hp, hI⟩ ?_).2
  rintro c l c' - ⟨hp, hI⟩ hs
  cases hs with
  | @access s s' ts t e k r ht ha =>
    have hop := hp t
    rw [show (⟨s, ts⟩ : Config T R α σ).threads t = _ from ht] at hop
    refine ⟨fun u => ?_, hop.1 _ _ _ ha hI⟩
    rcases eq_or_ne u t with rfl | hne
    · simpa using hop.2 r
    · simpa [Function.update_of_ne hne] using hp u
  | @unfold s ts t β γ body b k ht =>
    have hop := hp t
    rw [show (⟨s, ts⟩ : Config T R α σ).threads t = _ from ht] at hop
    refine ⟨fun u => ?_, hI⟩
    rcases eq_or_ne u t with rfl | hne
    · simpa using Prog.Only.unfold hop
    · simpa [Function.update_of_ne hne] using hp u
  | env he => exact ⟨hp, henv _ _ he hI⟩

end Reach

end Effect
