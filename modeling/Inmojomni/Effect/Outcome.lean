import Inmojomni.Effect.Raising

/-!
# Outcomes of scripts

Where every operation has one answer, a script has at most one outcome: it returns or raises
(`Yields`), or it goes on forever and has none (`Diverges`). Both compose as the script does. A
`Script.loop` that never gets to its end diverges (`Diverges.loop`).
-/

namespace Effect

variable {E : Type} {A : E → Type} {ε σ α β γ : Type}

/-- `while`-style loop: run `body` until it answers `inr`, or raises. -/
def Script.loop (body : β → Script A ε (β ⊕ γ)) (b : β) : Script A ε γ :=
  ExceptT.mk (Prog.loop (fun b => (body b).run.bind fun
    | .ok (.inl b') => .ret (.inl b')
    | .ok (.inr c) => .ret (.inr (.ok c))
    | .error e => .ret (.inr (.error e))) b)

/-- A computation without operations. -/
def Script.except (x : Except ε α) : Script A ε α := ExceptT.mk (.ret x)

section Outcome

variable (answer : (e : E) → σ → Except ε (A e) × σ)

/-- The access relation of answers. -/
def answers (e : E) (s : σ) (r : Except ε (A e)) (s' : σ) : Prop := answer e s = (r, s')

/-- The script ends in this way, and in no other. -/
def Yields (x : Script A ε α) (s : σ) (r : Except ε α) (s' : σ) : Prop :=
  ∀ r₁ s₁, Exec (answers answer) x.run s r₁ s₁ ↔ r₁ = r ∧ s₁ = s'

/-- The script does not end. It is never stuck, as every operation is answered. -/
def Diverges (x : Script A ε α) (s : σ) : Prop := ∀ r s', ¬ Exec (answers answer) x.run s r s'

/-- The script raises. -/
def Raises (x : Script A ε α) (s : σ) : Prop := ∃ e s', Yields answer x s (.error e) s'

variable {answer} {x : Script A ε α} {f : α → Script A ε β} {s t s' : σ} {a : α} {e : ε}
  {r : Except ε β}

theorem Yields.exec {r : Except ε α} (h : Yields answer x s r s') :
    Exec (answers answer) x.run s r s' :=
  (h r s').mpr ⟨rfl, rfl⟩

theorem Yields.not_diverges {r : Except ε α} (h : Yields answer x s r s') :
    ¬ Diverges answer x s :=
  fun hdiv => hdiv _ _ h.exec

theorem Raises.not_diverges (h : Raises answer x s) : ¬ Diverges answer x s := by
  obtain ⟨e, s', h⟩ := h
  exact h.not_diverges

theorem Yields.not_raises (h : Yields answer x s (.ok a) s') : ¬ Raises answer x s := by
  rintro ⟨e, t, hraise⟩
  exact nomatch ((h _ _).mp hraise.exec).1

theorem yields_pure (a : α) (s : σ) : Yields answer (pure a) s (.ok a) s := fun _ _ => exec_ret

theorem yields_throw (e : ε) (s : σ) : Yields answer (throw e : Script A ε α) s (.error e) s :=
  fun _ _ => exec_ret

theorem yields_except (r : Except ε α) (s : σ) : Yields answer (Script.except r) s r s :=
  fun _ _ => exec_ret

theorem yields_attempt (e : E) (s : σ) :
    Yields answer (attempt e) s (answer e s).1 (answer e s).2 := by
  intro r₁ s₁
  refine exec_op.trans ⟨?_, ?_⟩
  · rintro ⟨r, t, ha, hret⟩
    obtain ⟨rfl, rfl⟩ := exec_ret.mp hret
    rw [answers] at ha
    exact ⟨(congrArg Prod.fst ha).symm, (congrArg Prod.snd ha).symm⟩
  · rintro ⟨rfl, rfl⟩
    exact ⟨_, _, rfl, .ret _ _⟩

/-- A sequence executes as its parts do, up to the first that raises. -/
theorem exec_script_bind {access : (e : E) → σ → Except ε (A e) → σ → Prop} :
    Exec access (x >>= f).run s r s' ↔ (∃ e, Exec access x.run s (.error e) s' ∧ r = .error e) ∨
      ∃ a t, Exec access x.run s (.ok a) t ∧ Exec access (f a).run t r s' := by
  rw [ExceptT.run_bind, Prog.bind_eq, exec_bind]
  constructor
  · rintro ⟨q, t, hx, hf⟩
    cases q with
    | ok a => exact .inr ⟨a, t, hx, hf⟩
    | error e =>
      obtain ⟨rfl, rfl⟩ := exec_ret.mp hf
      exact .inl ⟨e, hx, rfl⟩
  · rintro (⟨e, hx, rfl⟩ | ⟨a, t, hx, hf⟩)
    · exact ⟨.error e, s', hx, .ret _ _⟩
    · exact ⟨.ok a, t, hx, hf⟩

/-- What comes after a computation that returns. -/
theorem Yields.exec_bind (hx : Yields answer x s (.ok a) t) :
    Exec (answers answer) (x >>= f).run s r s' ↔ Exec (answers answer) (f a).run t r s' := by
  rw [exec_script_bind]
  constructor
  · rintro (⟨e, he, -⟩ | ⟨a', t', ha, hrest⟩)
    · exact nomatch ((hx _ _).mp he).1
    · obtain ⟨heq, rfl⟩ := (hx _ _).mp ha
      obtain rfl := Except.ok.inj heq
      exact hrest
  · exact fun hrest => .inr ⟨a, t, hx.exec, hrest⟩

theorem Yields.bind_iff (hx : Yields answer x s (.ok a) t) :
    Yields answer (x >>= f) s r s' ↔ Yields answer (f a) t r s' :=
  forall₂_congr fun _ _ => iff_congr hx.exec_bind Iff.rfl

theorem Yields.bind (hx : Yields answer x s (.ok a) t) (hf : Yields answer (f a) t r s') :
    Yields answer (x >>= f) s r s' :=
  hx.bind_iff.mpr hf

theorem Yields.raise (hx : Yields answer x s (.error e) t) :
    Yields answer (x >>= f) s (.error e) t := by
  intro r₁ s₁
  rw [exec_script_bind]
  constructor
  · rintro (⟨e', he, rfl⟩ | ⟨a', t', ha, -⟩)
    · obtain ⟨heq, rfl⟩ := (hx _ _).mp he
      obtain rfl := Except.error.inj heq
      exact ⟨rfl, rfl⟩
    · exact nomatch ((hx _ _).mp ha).1
  · rintro ⟨rfl, rfl⟩
    exact .inl ⟨e, hx.exec, rfl⟩

theorem Raises.first (hx : Raises answer x s) : Raises answer (x >>= f) s := by
  obtain ⟨e, s', hx⟩ := hx
  exact ⟨e, s', hx.raise⟩

theorem Raises.bind_iff (hx : Yields answer x s (.ok a) t) :
    Raises answer (x >>= f) s ↔ Raises answer (f a) t :=
  exists₂_congr fun _ _ => hx.bind_iff

theorem Raises.bind (hx : Yields answer x s (.ok a) t) (hf : Raises answer (f a) t) :
    Raises answer (x >>= f) s :=
  (Raises.bind_iff hx).mpr hf

theorem Diverges.first (hx : Diverges answer x s) : Diverges answer (x >>= f) s := by
  intro r s' h
  rcases exec_script_bind.mp h with ⟨e, he, -⟩ | ⟨a, t, ha, -⟩
  · exact hx _ _ he
  · exact hx _ _ ha

theorem Diverges.bind (hx : Yields answer x s (.ok a) t) (hf : Diverges answer (f a) t) :
    Diverges answer (x >>= f) s :=
  fun _ _ h => hf _ _ (hx.exec_bind.mp h)

/-! ### Loops -/

variable {body : β → Script A ε (β ⊕ γ)} {b : β}

/-- A loop is one round and the rest of it. -/
theorem exec_loop {access : (e : E) → σ → Except ε (A e) → σ → Prop} {r : Except ε γ} :
    Exec access (Script.loop body b).run s r s' ↔
      Exec access (body b >>= Sum.elim (Script.loop body) pure).run s r s' := by
  refine exec_iter.trans ?_
  rw [Prog.unfold, Prog.bind_assoc, exec_bind, exec_script_bind]
  constructor
  · rintro ⟨e | b' | c, t, hq, hrest⟩
    · obtain ⟨rfl, rfl⟩ := exec_ret.mp hrest
      exact .inl ⟨e, hq, rfl⟩
    · exact .inr ⟨.inl b', t, hq, hrest⟩
    · exact .inr ⟨.inr c, t, hq, hrest⟩
  · rintro (⟨e, he, rfl⟩ | ⟨q, t, hq, hrest⟩)
    · exact ⟨.error e, s', he, .ret _ _⟩
    · cases q with
      | inl b' => exact ⟨.ok (.inl b'), t, hq, hrest⟩
      | inr c => exact ⟨.ok (.inr c), t, hq, hrest⟩

theorem yields_loop {r : Except ε γ} : Yields answer (Script.loop body b) s r s' ↔
    Yields answer (body b >>= Sum.elim (Script.loop body) pure) s r s' :=
  forall₂_congr fun _ _ => iff_congr exec_loop Iff.rfl

theorem diverges_loop : Diverges answer (Script.loop body b) s ↔
    Diverges answer (body b >>= Sum.elim (Script.loop body) pure) s :=
  forall₂_congr fun _ _ => not_congr exec_loop

theorem raises_loop : Raises answer (Script.loop body b) s ↔
    Raises answer (body b >>= Sum.elim (Script.loop body) pure) s :=
  exists₂_congr fun _ _ => yields_loop

/-- A loop that always goes into another round. -/
theorem Diverges.loop {I : β → σ → Prop} (hround : ∀ b s, I b s →
    ∃ b' s', Yields answer (body b) s (.ok (.inl b')) s' ∧ I b' s') (hI : I b s) :
    Diverges answer (Script.loop body b) s := by
  intro r s' h
  refine Exec.loop_inv (I := I) (J := fun _ _ => False) ?_ hI h
  intro b s q t hb hexec
  obtain ⟨b', s₁, hyield, hnext⟩ := hround b s hb
  obtain ⟨q', t', hq, hret⟩ := exec_bind.mp hexec
  obtain ⟨rfl, rfl⟩ := (hyield _ _).mp hq
  obtain ⟨rfl, rfl⟩ := exec_ret.mp hret
  exact hnext

/-! ### Returning -/

theorem Yields.returns_iff {r : Except ε α} (h : Yields answer x s r t) :
    Returns (answers answer) x s a s' ↔ .ok a = r ∧ s' = t :=
  h _ _

theorem Raises.not_returns (h : Raises answer x s) : ¬ Returns (answers answer) x s a s' := by
  obtain ⟨e, t, h⟩ := h
  intro hret
  cases (h.returns_iff.mp hret).1

theorem Diverges.not_returns (h : Diverges answer x s) : ¬ Returns (answers answer) x s a s' :=
  h _ _

theorem Returns.of_yields (h : Yields answer x s (.ok a) t) :
    Returns (answers answer) x s a t :=
  h.exec

end Outcome

/-- The loop rule for a loop that returns. -/
theorem Returns.loop_inv {access : (e : E) → σ → Except ε (A e) → σ → Prop}
    {body : β → Script A ε (β ⊕ γ)} {I : β → σ → Prop} {J : γ → σ → Prop}
    (hbody : ∀ b s r s', I b s → Returns access (body b) s r s' →
      Sum.elim (fun b' => I b' s') (fun c => J c s') r) {b : β} {s s' : σ} {c : γ}
    (hI : I b s) (h : Returns access (Script.loop body b) s c s') : J c s' := by
  refine Exec.loop_inv (I := I) (J := fun r s => ∀ c, r = .ok c → J c s) ?_ hI h c rfl
  intro b s q t hb hexec
  obtain ⟨r, t', hr, hq⟩ := exec_bind.mp hexec
  rcases r with e | b' | c
  · obtain ⟨rfl, rfl⟩ := exec_ret.mp hq
    rintro c ⟨⟩
  · obtain ⟨rfl, rfl⟩ := exec_ret.mp hq
    exact hbody _ _ _ _ hb hr
  · obtain ⟨rfl, rfl⟩ := exec_ret.mp hq
    rintro _ ⟨rfl⟩
    exact hbody _ _ _ _ hb hr

end Effect
