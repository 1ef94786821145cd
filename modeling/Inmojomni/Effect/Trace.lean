import Inmojomni.Effect.Prog

/-!
# Traces of executions

`Traced access p s a s' tr` is an execution of a program alone, as `Exec` has it, together with the
operations it makes and their answers, in order. The trace of a sequence is the traces of its parts
one after the other (`traced_bind`), and a loop keeps an invariant that speaks about the trace so
far (`Traced.loop_inv`).
-/

namespace Effect

variable {E : Type} {R : E → Type} {α β γ σ : Type}

/-- An operation and its answer. -/
abbrev Answered (R : E → Type) := (e : E) × R e

section Trace

variable (access : (e : E) → σ → R e → σ → Prop)

/-- The operations are written down behind those made so far. -/
def logged (e : E) (s : σ × List (Answered R)) (r : R e) (s' : σ × List (Answered R)) : Prop :=
  access e s.1 r s'.1 ∧ s'.2 = s.2 ++ [⟨e, r⟩]

/-- From `s`, the program can make the operations `tr`, answer `a` and leave `s'`. -/
def Traced (p : Prog R α) (s : σ) (a : α) (s' : σ) (tr : List (Answered R)) : Prop :=
  Exec (logged access) p (s, []) a (s', tr)

variable {access} {p : Prog R α} {s s' : σ} {a : α} {tr : List (Answered R)}

/-- What was written down before makes no difference. -/
private theorem exec_logged {x y : σ × List (Answered R)} (h : Exec (logged access) p x a y) :
    ∃ tr, y.2 = x.2 ++ tr ∧ ∀ l, Exec (logged access) p (x.1, l) a (y.1, l ++ tr) := by
  induction h with
  | ret a x =>
    refine ⟨[], (List.append_nil _).symm, fun l => ?_⟩
    rw [List.append_nil]
    exact .ret _ _
  | @op e k x y z r a he hk ih =>
    obtain ⟨tr, htr, hrest⟩ := ih
    refine ⟨⟨e, r⟩ :: tr, ?_, fun l => ?_⟩
    · rw [htr, he.2, List.append_assoc, List.singleton_append]
    · have hlog : logged access e (x.1, l) r (y.1, l ++ [⟨e, r⟩]) := ⟨he.1, rfl⟩
      have hcont := hrest (l ++ [⟨e, r⟩])
      rw [List.append_assoc, List.singleton_append] at hcont
      exact .op hlog hcont
  | iter _ ih =>
    obtain ⟨tr, htr, hrest⟩ := ih
    exact ⟨tr, htr, fun l => .iter (hrest l)⟩

private theorem exec_logged_iff {l l' : List (Answered R)} :
    Exec (logged access) p (s, l) a (s', l') ↔ ∃ tr, l' = l ++ tr ∧ Traced access p s a s' tr := by
  constructor
  · intro h
    obtain ⟨tr, htr, hrest⟩ := exec_logged h
    exact ⟨tr, htr, hrest []⟩
  · rintro ⟨tr, rfl, h⟩
    obtain ⟨tr', htr', hrest⟩ := exec_logged h
    rw [List.nil_append] at htr'
    have hfrom := hrest l
    rwa [← htr'] at hfrom

theorem Traced.exec (h : Traced access p s a s' tr) : Exec access p s a s' := by
  suffices key : ∀ {x y : σ × List (Answered R)}, Exec (logged access) p x a y →
      Exec access p x.1 a y.1 from key h
  intro x y hlog
  clear h
  induction hlog with
  | ret a x => exact .ret _ _
  | op he _ ih => exact .op he.1 ih
  | iter _ ih => exact .iter ih

/-- Where every access has one outcome, so has the program. -/
theorem Exec.unique (hdet : ∀ e s r t r' t', access e s r t → access e s r' t' → r' = r ∧ t' = t)
    (h : Exec access p s a s') {b : α} {t' : σ} (h' : Exec access p s b t') : b = a ∧ t' = s' := by
  induction h with
  | ret a s => exact exec_ret.mp h'
  | op he _ ih =>
    obtain ⟨r', t, he', hk'⟩ := exec_op.mp h'
    obtain ⟨rfl, rfl⟩ := hdet _ _ _ _ _ _ he he'
    exact ih hk'
  | iter _ ih => exact ih (exec_iter.mp h')

theorem Traced.unique
    (hdet : ∀ e s r t r' t', access e s r t → access e s r' t' → r' = r ∧ t' = t)
    (h : Traced access p s a s' tr) {b : α} {t' : σ} {tr' : List (Answered R)}
    (h' : Traced access p s b t' tr') : b = a ∧ t' = s' ∧ tr' = tr := by
  have hlog : ∀ e (x : σ × List (Answered R)) r y r' y', logged access e x r y →
      logged access e x r' y' → r' = r ∧ y' = y := by
    rintro e x r ⟨y, l⟩ r' ⟨y', l'⟩ ⟨he, rfl⟩ ⟨he', rfl⟩
    obtain ⟨rfl, rfl⟩ := hdet _ _ _ _ _ _ he he'
    exact ⟨rfl, rfl⟩
  obtain ⟨ha, hs⟩ := Exec.unique hlog h h'
  exact ⟨ha, Prod.mk.inj hs⟩

/-- Every execution has a trace. -/
theorem Exec.traced (h : Exec access p s a s') : ∃ tr, Traced access p s a s' tr := by
  suffices key : ∀ l, ∃ l', Exec (logged access) p (s, l) a (s', l') from key []
  induction h with
  | ret a s => exact fun l => ⟨l, .ret _ _⟩
  | @op e k s s' s'' r a he hk ih =>
    intro l
    obtain ⟨l', hl'⟩ := ih (l ++ [⟨e, r⟩])
    have hlog : logged access e (s, l) r (s', l ++ [⟨e, r⟩]) := ⟨he, rfl⟩
    exact ⟨l', .op hlog hl'⟩
  | iter _ ih =>
    intro l
    obtain ⟨l', hl'⟩ := ih l
    exact ⟨l', .iter hl'⟩

@[simp] theorem traced_ret {b : α} :
    Traced access (.ret a) s b s' tr ↔ b = a ∧ s' = s ∧ tr = [] := by
  rw [Traced, exec_ret, Prod.mk.injEq]

theorem traced_op {e : E} {k : R e → Prog R α} :
    Traced access (.op e k) s a s' tr ↔
      ∃ r t tr', access e s r t ∧ Traced access (k r) t a s' tr' ∧ tr = ⟨e, r⟩ :: tr' := by
  rw [Traced, exec_op]
  constructor
  · rintro ⟨r, ⟨t, l⟩, ⟨ha, rfl⟩, hk⟩
    obtain ⟨tr', rfl, hk'⟩ := exec_logged_iff.mp hk
    exact ⟨r, t, tr', ha, hk', rfl⟩
  · rintro ⟨r, t, tr', ha, hk, rfl⟩
    exact ⟨r, (t, [⟨e, r⟩]), ⟨ha, rfl⟩, exec_logged_iff.mpr ⟨tr', rfl, hk⟩⟩

@[simp] theorem traced_call {e : E} {r : R e} :
    Traced access (.call e) s r s' tr ↔ access e s r s' ∧ tr = [⟨e, r⟩] := by
  rw [Prog.call, traced_op]
  constructor
  · rintro ⟨_, _, _, ha, hret, rfl⟩
    obtain ⟨rfl, rfl, rfl⟩ := traced_ret.mp hret
    exact ⟨ha, rfl⟩
  · rintro ⟨ha, rfl⟩
    exact ⟨r, s', [], ha, traced_ret.mpr ⟨rfl, rfl, rfl⟩, rfl⟩

theorem traced_bind {f : α → Prog R β} {b : β} :
    Traced access (p.bind f) s b s' tr ↔ ∃ a t tr₁ tr₂,
      Traced access p s a t tr₁ ∧ Traced access (f a) t b s' tr₂ ∧ tr = tr₁ ++ tr₂ := by
  rw [Traced, exec_bind]
  constructor
  · rintro ⟨a, ⟨t, tr₁⟩, hp, hf⟩
    obtain ⟨tr₂, rfl, hf'⟩ := exec_logged_iff.mp hf
    exact ⟨a, t, tr₁, tr₂, hp, hf', rfl⟩
  · rintro ⟨a, t, tr₁, tr₂, hp, hf, rfl⟩
    exact ⟨a, (t, tr₁), hp, exec_logged_iff.mpr ⟨tr₂, rfl, hf⟩⟩

/-- **Loop rule.** The invariant may speak about what has been done since the loop began. -/
theorem Traced.loop_inv {body : β → Prog R (β ⊕ γ)} {I : β → σ → List (Answered R) → Prop}
    {J : γ → σ → List (Answered R) → Prop}
    (hbody : ∀ b s l r s' tr, I b s l → Traced access (body b) s r s' tr →
      Sum.elim (fun b' => I b' s' (l ++ tr)) (fun c => J c s' (l ++ tr)) r) {b : β} {c : γ}
    (hI : I b s []) (h : Traced access (Prog.loop body b) s c s' tr) : J c s' tr := by
  refine Exec.loop_inv (I := fun b x => I b x.1 x.2) (J := fun c x => J c x.1 x.2) ?_ hI h
  rintro b ⟨s, l⟩ r ⟨s', l'⟩ hI hround
  obtain ⟨tr, rfl, htr⟩ := exec_logged_iff.mp hround
  exact hbody b s l r s' tr hI htr

end Trace

end Effect
