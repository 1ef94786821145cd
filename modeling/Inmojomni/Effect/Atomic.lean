import Inmojomni.Effect.RelyGuarantee

/-!
# Operations that look atomic

A client is written against an interface, a signature of operations of its own, and runs with the
code of each operation in its place (`Prog.implement`). A `Linearization` names, for the code of an
operation, the one access with which it takes effect (`commit`), and how the state of the machine
below is read as a state of the machine above (`abs`), where an operation is a single step.

`Atomic` is the obligation for each operation alone: its code keeps to a protocol, every access
before and after the committing one leaves the abstract state as it is, the committing access does
to it what the operation does, and its answer is what the operation answers. It is a triple over
the state and the answer committed so far, so that the rules of the protocol prove it.

`Linearization.simulates` is what it is for: whatever the clients do, and whatever the
interleaving of their accesses, every reachable configuration below is one that the clients reach
above, with operations as single steps.
-/

namespace Effect

variable {T E E' : Type} {R : E → Type} {R' : E' → Type} {σ τ α β γ : Type}

/-! ### Clients -/

namespace Prog

variable (impl : (e : E') → Prog R (R' e))

/-- A client, with the code of every operation in its place. -/
def implement : {α : Type} → Prog R' α → Prog R α
  | _, .ret a => .ret a
  | _, .op e k => (impl e).bind fun r => (k r).implement
  | _, .iter body b k => .iter (fun b => (body b).implement) b fun c => (k c).implement

@[simp] theorem implement_ret (a : α) : (ret a : Prog R' α).implement impl = .ret a := rfl

@[simp] theorem implement_op (e : E') (k : R' e → Prog R' α) :
    (op e k).implement impl = (impl e).bind fun r => (k r).implement impl := rfl

@[simp] theorem implement_iter (body : β → Prog R' (β ⊕ γ)) (b : β) (k : γ → Prog R' α) :
    (iter body b k).implement impl
      = .iter (fun b => (body b).implement impl) b fun c => (k c).implement impl := rfl

theorem implement_bind (p : Prog R' α) (f : α → Prog R' β) :
    (p.bind f).implement impl = (p.implement impl).bind fun a => (f a).implement impl := by
  induction p with
  | ret a => rfl
  | op e k ih => simp only [op_bind, implement_op, bind_assoc, ih]
  | iter body b k _ ih => simp only [iter_bind, implement_iter, ih]

theorem implement_unfold (body : β → Prog R' (β ⊕ γ)) (k : γ → Prog R' α) (b : β) :
    (unfold body k b).implement impl
      = unfold (fun b => (body b).implement impl) (fun c => (k c).implement impl) b := by
  rw [unfold, implement_bind, unfold]
  congr 1
  funext x
  cases x <;> rfl

end Prog

/-! ### The obligation of an operation -/

/-- How the steps of `M`, taken by code, are read as steps of `M'`, taken by operations. -/
structure Linearization (M : Machine T R σ) (M' : Machine T R' τ) where
  /-- The abstract state. -/
  abs : σ → τ
  /-- What the threads tolerate from each other below. -/
  protocol : Protocol M
  /-- What thread `t` can count on between two operations. -/
  inv : T → σ → Prop
  /-- What an operation answers that takes effect with the access `e` answered `r`, if it does. -/
  commit : (e' : E') → (e : E) → R e → σ → Option (R' e')
  inv_stable : ∀ {t : T}, Stable protocol t (inv t)
  env_abs : ∀ {s s' : σ}, M.env s s' → abs s' = abs s ∨ M'.env (abs s) (abs s')

namespace Linearization

variable {M : Machine T R σ} {M' : Machine T R' τ} (Λ : Linearization M M')

/-- Inside operation `e'`, thread `t` on its own: beside the state there is the answer, once the
operation has taken effect. The others are what `t` tolerates. -/
def view (t : T) (e' : E') : Machine Unit R (σ × Option (R' e')) where
  access _ e s r s' := M.access t e s.1 r s'.1 ∧ s'.2 = (Λ.commit e' e r s.1).or s.2
  env s s' := Λ.protocol.rely t s.1 s'.1 ∧ s'.2 = s.2

/-- What an access of operation `e'` has to do to the abstract state: nothing, or all that the
operation does. -/
def Effects (t : T) (e' : E') (s : σ × Option (R' e')) (s' : σ) : Option (R' e') → Prop
  | none => Λ.abs s' = Λ.abs s.1
  | some a => s.2 = none ∧ M'.access t e' (Λ.abs s.1) a (Λ.abs s')

/-- The duties of thread `t` inside operation `e'`. -/
def duty (t : T) (e' : E') : Protocol (Λ.view t e') where
  rely _ s s' := Λ.protocol.rely t s.1 s'.1 ∧ s'.2 = s.2
  guar _ e s r s' := Λ.protocol.guar t e s.1 r s'.1 ∧ Λ.Effects t e' s s'.1 (Λ.commit e' e r s.1)
  guar_rely := fun htu => absurd rfl htu
  env_rely := fun h => h

/-- The operation is over: it has taken effect with the answer `a`, or could do so without a change
of the state. -/
def Done (t : T) (e' : E') (a : R' e') (s : σ × Option (R' e')) : Prop :=
  Λ.inv t s.1 ∧ (s.2 = some a ∨ s.2 = none ∧ M'.access t e' (Λ.abs s.1) a (Λ.abs s.1))

/-- Each operation of `impl` takes effect at one point. -/
def Atomic (impl : (e : E') → Prog R (R' e)) : Prop :=
  ∀ t e', Triple (Λ.duty t e') () (fun s => Λ.inv t s.1 ∧ s.2 = none) (impl e') (Λ.Done t e')

theorem stable_duty {t : T} (e' : E') {P : σ → Prop} (g : Option (R' e'))
    (h : Stable Λ.protocol t P) : Stable (Λ.duty t e') () fun s => P s.1 ∧ s.2 = g :=
  fun s s' hr hP => ⟨h s.1 s'.1 hr.1 hP.1, hr.2.trans hP.2⟩

end Linearization

/-! ### Simulation -/

/-- Thread `t` can get from `p` to `p'` in steps of its own that take the state from `x` to `x'`. -/
def Machine.Leads [DecidableEq T] (M : Machine T R σ) (t : T) (x : σ) (p : Prog R α) (x' : σ)
    (p' : Prog R α) : Prop :=
  ∀ c₀ ts, M.Reach c₀ ⟨x, ts⟩ → ts t = p → M.Reach c₀ ⟨x', Function.update ts t p'⟩

namespace Machine.Leads

variable [DecidableEq T] {M : Machine T R σ} {t : T} {x x' x'' : σ}

theorem refl (p : Prog R α) : M.Leads t x p x p := by
  intro c₀ ts h ht
  rwa [← ht, Function.update_eq_self]

theorem trans {p p' p'' : Prog R α} (h : M.Leads t x p x' p') (h' : M.Leads t x' p' x'' p'') :
    M.Leads t x p x'' p'' := by
  intro c₀ ts hr ht
  have hlast := h' c₀ _ (h c₀ ts hr ht) (Function.update_self t p' ts)
  rwa [Function.update_idem] at hlast

theorem access {e : E} {k : R e → Prog R α} {r : R e} (h : M.access t e x r x') :
    M.Leads t x (.op e k) x' (k r) :=
  fun _ _ hr ht => hr.step (.access ht h)

theorem unfold (body : β → Prog R (β ⊕ γ)) (b : β) (k : γ → Prog R α) :
    M.Leads t x (.iter body b k) x (Prog.unfold body k b) :=
  fun _ _ hr ht => hr.step (.unfold ht)

end Machine.Leads

namespace Linearization

/-- Where the client stands while the operation runs: before it, or behind it once it has taken
effect. -/
def pending (e : E') (k : R' e → Prog R' α) : Option (R' e) → Prog R' α
  | none => .op e k
  | some a => k a

/-- What is left to run of thread `t` is what its client `p'` above has left: the client itself,
or the rest `q` of an operation and then the client. -/
inductive Follows {M : Machine T R σ} {M' : Machine T R' τ} (Λ : Linearization M M')
    (impl : (e : E') → Prog R (R' e)) (t : T) (s : σ) : Prog R α → Prog R' α → Prop
  | between (p' : Prog R' α) (h : Λ.inv t s) : Follows Λ impl t s (p'.implement impl) p'
  | inside (e : E') (k : R' e → Prog R' α) (g : Option (R' e)) (q : Prog R (R' e))
      (hq : ∀ a, q ≠ .ret a) (h : ∀ n, Safe (Λ.duty t e) () (Λ.Done t e) n q (s, g)) :
      Follows Λ impl t s (q.bind fun r => (k r).implement impl) (pending e k g)

section Follows

variable {M : Machine T R σ} {M' : Machine T R' τ} {Λ : Linearization M M'}
  {impl : (e : E') → Prog R (R' e)} {t : T} {s s' : σ}

theorem Follows.rely {p : Prog R α} {p' : Prog R' α} (h : Follows Λ impl t s p p')
    (hr : Λ.protocol.rely t s s') : Follows Λ impl t s' p p' := by
  cases h with
  | between p' hinv => exact .between p' (Λ.inv_stable s s' hr hinv)
  | inside e k g q hq hsafe => exact .inside e k g q hq fun n => (hsafe (n + 1)).1 (s', g) ⟨hr, rfl⟩

variable [DecidableEq T]

/-- The rest of an operation may be nothing: then the client stands behind it. -/
theorem Follows.of_safe (e : E') (k : R' e → Prog R' α) (g : Option (R' e)) (q : Prog R (R' e))
    (h : ∀ n, Safe (Λ.duty t e) () (Λ.Done t e) n q (s, g)) :
    ∃ p', M'.Leads t (Λ.abs s) (pending e k g) (Λ.abs s) p' ∧
      Follows Λ impl t s (q.bind fun r => (k r).implement impl) p' := by
  cases q with
  | ret a =>
    obtain ⟨hinv, hg | ⟨hg, ha⟩⟩ := (h 1).2
    · dsimp only at hg
      subst hg
      exact ⟨k a, .refl _, .between (k a) hinv⟩
    · dsimp only at hg
      subst hg
      exact ⟨k a, .access ha, .between (k a) hinv⟩
  | op e₀ k₀ => exact ⟨_, .refl _, .inside e k g _ (by rintro _ ⟨⟩) h⟩
  | iter body b k₀ => exact ⟨_, .refl _, .inside e k g _ (by rintro _ ⟨⟩) h⟩

/-- One access inside an operation: above it is a step if it is the committing one. -/
theorem Follows.of_access {e : E'} {k : R' e → Prog R' α} {g : Option (R' e)} {e₀ : E}
    {q : R e₀ → Prog R (R' e)} {r : R e₀}
    (h : ∀ n, Safe (Λ.duty t e) () (Λ.Done t e) n (.op e₀ q) (s, g))
    (ha : M.access t e₀ s r s') :
    Λ.protocol.guar t e₀ s r s' ∧ ∃ p', M'.Leads t (Λ.abs s) (pending e k g) (Λ.abs s') p' ∧
      Follows Λ impl t s' ((q r).bind fun r => (k r).implement impl) p' := by
  have hstep := fun n => (h (n + 1)).2 r (s', (Λ.commit e e₀ r s).or g) ⟨ha, rfl⟩
  obtain ⟨hguar, heff⟩ := (hstep 0).1
  refine ⟨hguar, ?_⟩
  have hrest : ∃ p', M'.Leads t (Λ.abs s') (pending e k ((Λ.commit e e₀ r s).or g)) (Λ.abs s') p' ∧
      Follows Λ impl t s' ((q r).bind fun r => (k r).implement impl) p' :=
    Follows.of_safe e k _ (q r) fun n => (hstep n).2
  obtain ⟨p', hlead, hfollows⟩ := hrest
  refine ⟨p', ?_, hfollows⟩
  cases hc : Λ.commit e e₀ r s with
  | none =>
    rw [hc] at heff hlead
    rw [← heff]
    exact hlead
  | some a =>
    rw [hc] at heff hlead
    obtain ⟨hg, hstep'⟩ := heff
    dsimp only at hg
    subst hg
    exact .trans (.access hstep') hlead

variable (hatomic : Λ.Atomic impl) (hop : ∀ e a, impl e ≠ .ret a)
include hatomic

omit [DecidableEq T] in
/-- A client that is about to call an operation is inside its code. -/
theorem safe_impl (e : E') (h : Λ.inv t s) (n : ℕ) :
    Safe (Λ.duty t e) () (Λ.Done t e) n (impl e) (s, none) :=
  hatomic t e n (s, none) ⟨h, rfl⟩

include hop

/-- An access of the code keeps to the protocol, and above it is a step or none. -/
theorem Follows.access {e : E} {k : R e → Prog R α} {p' : Prog R' α} {r : R e}
    (h : Follows Λ impl t s (.op e k) p') (ha : M.access t e s r s') :
    Λ.protocol.guar t e s r s' ∧ ∃ p'', M'.Leads t (Λ.abs s) p' (Λ.abs s') p'' ∧
      Follows Λ impl t s' (k r) p'' := by
  generalize hp : Prog.op e k = p at h
  cases h with
  | between p' hinv =>
    cases p' with
    | ret a => cases hp
    | op e' k' =>
      have hsafe := safe_impl hatomic e' hinv
      cases hi : impl e' with
      | ret a => exact absurd hi (hop e' a)
      | op e₀ q =>
        rw [Prog.implement_op, hi, Prog.op_bind] at hp
        cases hp
        rw [hi] at hsafe
        exact Follows.of_access hsafe ha
      | iter body b q =>
        rw [Prog.implement_op, hi] at hp
        cases hp
    | iter body b k' => cases hp
  | inside e' k' g q hq hsafe =>
    cases q with
    | ret a => exact absurd rfl (hq a)
    | op e₀ q =>
      cases hp
      exact Follows.of_access hsafe ha
    | iter body b q => cases hp

/-- The next round of a loop, which is one of the client or one inside an operation. -/
theorem Follows.unfold {body : β → Prog R (β ⊕ γ)} {b : β} {k : γ → Prog R α} {p' : Prog R' α}
    (h : Follows Λ impl t s (.iter body b k) p') :
    ∃ p'', M'.Leads t (Λ.abs s) p' (Λ.abs s) p'' ∧
      Follows Λ impl t s (Prog.unfold body k b) p'' := by
  generalize hp : Prog.iter body b k = p at h
  cases h with
  | between p' hinv =>
    cases p' with
    | ret a => cases hp
    | op e' k' =>
      have hsafe := safe_impl hatomic e' hinv
      cases hi : impl e' with
      | ret a => exact absurd hi (hop e' a)
      | op e₀ q =>
        rw [Prog.implement_op, hi] at hp
        cases hp
      | iter body b q =>
        rw [Prog.implement_op, hi, Prog.iter_bind] at hp
        cases hp
        rw [hi] at hsafe
        rw [← Prog.unfold_bind]
        exact Follows.of_safe e' k' none _ fun n => (hsafe (n + 1)).2
    | iter body' b' k' =>
      cases hp
      rw [← Prog.implement_unfold]
      exact ⟨_, .unfold body' b k', .between _ hinv⟩
  | inside e' k' g q hq hsafe =>
    cases q with
    | ret a => exact absurd rfl (hq a)
    | op e₀ q => cases hp
    | iter body' b' q =>
      cases hp
      rw [← Prog.unfold_bind]
      exact Follows.of_safe e' k' g _ fun n => (hsafe (n + 1)).2

omit hatomic [DecidableEq T] in
/-- A thread that has ended has ended above, with the same result. -/
theorem Follows.result {a : α} {p' : Prog R' α} (h : Follows Λ impl t s (.ret a) p') :
    p' = .ret a := by
  generalize hp : Prog.ret a = p at h
  cases h with
  | between p' hinv =>
    cases p' with
    | ret b =>
      cases hp
      rfl
    | op e k =>
      cases hi : impl e with
      | ret b => exact absurd hi (hop e b)
      | op e₀ q =>
        rw [Prog.implement_op, hi] at hp
        cases hp
      | iter body b q =>
        rw [Prog.implement_op, hi] at hp
        cases hp
    | iter body b k => cases hp
  | inside e k g q hq hsafe =>
    cases q with
    | ret b => exact absurd rfl (hq b)
    | op e₀ q => cases hp
    | iter body b q => cases hp

end Follows

/-! ### Soundness -/

section Soundness

variable [DecidableEq T] {M : Machine T R σ} {M' : Machine T R' τ} {Λ : Linearization M M'}
  {impl : (e : E') → Prog R (R' e)} (hatomic : Λ.Atomic impl) (hop : ∀ e a, impl e ≠ .ret a)
include hatomic hop

/-- One step below is steps above, or none. -/
theorem step {c c' : Config T R α σ} {l : Label T} {ts : T → Prog R' α} {d₀ : Config T R' α τ}
    (hd : M'.Reach d₀ ⟨Λ.abs c.shared, ts⟩)
    (hf : ∀ t, Follows Λ impl t c.shared (c.threads t) (ts t)) (hs : M.Step c l c') :
    ∃ ts', M'.Reach d₀ ⟨Λ.abs c'.shared, ts'⟩ ∧
      ∀ t, Follows Λ impl t c'.shared (c'.threads t) (ts' t) := by
  cases hs with
  | @access s s' ps t e k r ht ha =>
    have hfollows := hf t
    dsimp only at hfollows
    rw [ht] at hfollows
    obtain ⟨hguar, p', hlead, hp'⟩ := hfollows.access hatomic hop ha
    refine ⟨_, hlead d₀ ts hd rfl, fun u => ?_⟩
    by_cases hut : u = t
    · subst hut
      simpa using hp'
    · have hr := Λ.protocol.guar_rely (Ne.symm hut) ha hguar
      simpa [Function.update_of_ne hut] using (hf u).rely hr
  | @unfold s ps t β γ body b k ht =>
    have hfollows := hf t
    dsimp only at hfollows
    rw [ht] at hfollows
    obtain ⟨p', hlead, hp'⟩ := hfollows.unfold hatomic hop
    refine ⟨_, hlead d₀ ts hd rfl, fun u => ?_⟩
    by_cases hut : u = t
    · subst hut
      simpa using hp'
    · simpa [Function.update_of_ne hut] using hf u
  | env he =>
    refine ⟨ts, ?_, fun t => (hf t).rely (Λ.protocol.env_rely he)⟩
    obtain heq | henv := Λ.env_abs he
    · rw [heq]
      exact hd
    · exact hd.step (.env henv)

/-- Steps below are steps above, from wherever the threads stand. -/
theorem continues {c₁ c : Config T R α σ} {ts₁ : T → Prog R' α}
    (hf : ∀ t, Follows Λ impl t c₁.shared (c₁.threads t) (ts₁ t)) (hc : M.Reach c₁ c) :
    ∃ ts, M'.Reach ⟨Λ.abs c₁.shared, ts₁⟩ ⟨Λ.abs c.shared, ts⟩ ∧
      ∀ t, Follows Λ impl t c.shared (c.threads t) (ts t) :=
  hc.induction (P := fun c => ∃ ts, M'.Reach ⟨Λ.abs c₁.shared, ts₁⟩ ⟨Λ.abs c.shared, ts⟩ ∧
      ∀ t, Follows Λ impl t c.shared (c.threads t) (ts t))
    ⟨ts₁, .refl _, hf⟩ fun _ _ _ _ ⟨_, hd, hf⟩ hs => step hatomic hop hd hf hs

/-- **Simulation.** Whatever the clients do and however their accesses interleave, what is
reachable with the code of the operations is reachable with the operations as single steps. -/
theorem simulates {s₀ : σ} (h₀ : ∀ t, Λ.inv t s₀) {clients : T → Prog R' α} {c : Config T R α σ}
    (hc : M.Reach ⟨s₀, fun t => (clients t).implement impl⟩ c) :
    ∃ ts, M'.Reach ⟨Λ.abs s₀, clients⟩ ⟨Λ.abs c.shared, ts⟩ ∧
      ∀ t, Follows Λ impl t c.shared (c.threads t) (ts t) :=
  continues hatomic hop (fun t => .between (clients t) (h₀ t)) hc

/-- **Safety.** What every guaranteed access and every move of the environment keeps holds in
every reachable configuration. -/
theorem invariant {I : σ → Prop} {s₀ : σ} (h₀ : ∀ t, Λ.inv t s₀) (hI : I s₀)
    {clients : T → Prog R' α} {c : Config T R α σ}
    (hguar : ∀ t e s r s', M.access t e s r s' → Λ.protocol.guar t e s r s' → I s → I s')
    (henv : ∀ s s', M.env s s' → I s → I s')
    (hc : M.Reach ⟨s₀, fun t => (clients t).implement impl⟩ c) : I c.shared := by
  refine hc.induction (P := fun c => I c.shared) hI fun c l c' hr ih hs => ?_
  obtain ⟨ts, -, hf⟩ := simulates hatomic hop h₀ hr
  cases hs with
  | @access s s' ps t e k r ht ha =>
    have hfollows := hf t
    dsimp only at hfollows
    rw [ht] at hfollows
    exact hguar t e s r s' ha (hfollows.access hatomic hop ha).1 ih
  | unfold ht => exact ih
  | env he => exact henv _ _ he ih

end Soundness

end Linearization

end Effect
