import Inmojomni.Effect.Prog

/-!
# Programs that raise

A `Script` is a program that may end in an error instead of a value: a statement that raises ends
the whole script. `Returns` is the part of the executions that matters to a caller, those that
end in a value, and it composes as the script does.

`Meanwhile` is for a program whose surroundings go on by themselves: any number of moves of the
environment may come before each access.
-/

namespace Effect

/-- A program whose operations answer a value or raise an error, and which does so itself. -/
abbrev Script {E : Type} (A : E → Type) (ε : Type) := ExceptT ε (Prog fun e => Except ε (A e))

/-- One operation; what it raises is raised. -/
def attempt {E : Type} {A : E → Type} {ε : Type} (e : E) : Script A ε (A e) :=
  ExceptT.mk (Prog.call e)

/-- Moves of the environment, then the access. -/
def Meanwhile {E : Type} {R : E → Type} {σ : Type} (env : σ → σ → Prop)
    (access : (e : E) → σ → R e → σ → Prop) (e : E) (s : σ) (r : R e) (s'' : σ) : Prop :=
  ∃ s', Relation.ReflTransGen env s s' ∧ access e s' r s''

/-- What the environment keeps still holds at the access. -/
theorem Meanwhile.keep {E : Type} {R : E → Type} {σ : Type} {env : σ → σ → Prop}
    {access : (e : E) → σ → R e → σ → Prop} {I : σ → Prop} (hI : ∀ s t, I s → env s t → I t)
    {e : E} {s s' : σ} {r : R e} (h : Meanwhile env access e s r s') (hs : I s) :
    ∃ t, I t ∧ access e t r s' := by
  obtain ⟨t, hst, ht⟩ := h
  refine ⟨t, ?_, ht⟩
  clear ht
  induction hst with
  | refl => exact hs
  | tail _ hmove ih => exact hI _ _ ih hmove

section Returns

variable {E : Type} {A : E → Type} {ε σ α β : Type}
  {access : (e : E) → σ → Except ε (A e) → σ → Prop} {s s' : σ}

/-- Run from `s`, the script can answer `a` without raising and leave `s'`. -/
def Returns (access : (e : E) → σ → Except ε (A e) → σ → Prop) (x : Script A ε α) (s : σ) (a : α)
    (s' : σ) : Prop :=
  Exec access x.run s (.ok a) s'

@[simp] theorem returns_pure {a b : α} :
    Returns access (pure a : Script A ε α) s b s' ↔ b = a ∧ s' = s := by
  rw [Returns, ExceptT.run_pure, Prog.pure_eq, exec_ret, Except.ok.injEq]

theorem not_returns_throw {e : ε} {a : α} :
    ¬ Returns access (throw e : Script A ε α) s a s' := by
  intro h
  rw [Returns, ExceptT.run_throw, Prog.pure_eq, exec_ret] at h
  exact nomatch h.1

/-- A computation without operations. -/
theorem returns_except {x : Except ε α} {a : α} :
    Returns access (ExceptT.mk (.ret x) : Script A ε α) s a s' ↔ x = .ok a ∧ s' = s := by
  rw [Returns, ExceptT.run_mk, exec_ret, eq_comm]

/-- A sequence returns exactly when its parts do, one after the other. -/
theorem returns_bind {x : Script A ε α} {f : α → Script A ε β} {b : β} :
    Returns access (x >>= f) s b s' ↔
      ∃ a t, Returns access x s a t ∧ Returns access (f a) t b s' := by
  rw [Returns, ExceptT.run_bind, Prog.bind_eq, exec_bind]
  constructor
  · rintro ⟨r, t, hx, hf⟩
    cases r with
    | ok a => exact ⟨a, t, hx, hf⟩
    | error e => exact nomatch (exec_ret.mp hf).1
  · rintro ⟨a, t, hx, hf⟩
    exact ⟨.ok a, t, hx, hf⟩

@[simp] theorem returns_attempt {e : E} {a : A e} :
    Returns access (attempt e : Script A ε (A e)) s a s' ↔ access e s (.ok a) s' := by
  refine exec_op.trans ⟨?_, fun h => ⟨.ok a, s', h, .ret _ _⟩⟩
  rintro ⟨r, t, h, hr⟩
  obtain ⟨rfl, rfl⟩ := exec_ret.mp hr
  exact h

theorem returns_ite {p : Prop} [Decidable p] {x y : Script A ε α} {a : α} :
    Returns access (if p then x else y) s a s' ↔
      p ∧ Returns access x s a s' ∨ ¬p ∧ Returns access y s a s' := by
  by_cases hp : p
  · simp [hp]
  · simp [hp]

end Returns

end Effect
