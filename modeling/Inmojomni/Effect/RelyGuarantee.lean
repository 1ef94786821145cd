import Inmojomni.Effect.Prog

/-!
# Rely–guarantee reasoning about programs side by side

A `Protocol` of a machine says, thread by thread, which changes of the shared state the
thread tolerates from everybody else (`rely`) and which effect each of its own accesses may
have (`guar`); its two laws say that what one thread may do, and what the environment may do,
is tolerated by the other threads.

`Triple Γ t P p Q` is then a specification of one thread's program alone: from a state in
`P`, with the others keeping to `rely t`, every access of `p` keeps to `guar t` and `p` ends
in `Q`. The rules below derive triples along the structure of a program, and
`Protocol.sound` puts them together: if every thread has a triple and its precondition holds
initially, then in every reachable configuration every thread still keeps to its part.

Triples are about partial correctness. They are defined by a step index (`Safe`), so that
the loop rule is an induction and needs no fixed-point theory.
-/

namespace Effect

variable {T E : Type} {R : E → Type} {σ α β γ δ : Type}

/-- The division of labour between the threads of a machine. -/
structure Protocol (M : Machine T R σ) where
  /-- What thread `t` tolerates from the others. -/
  rely : T → σ → σ → Prop
  /-- What the accesses of thread `t` may do. -/
  guar : T → (e : E) → σ → R e → σ → Prop
  guar_rely : ∀ {t u : T} {e : E} {s s' : σ} {r : R e}, t ≠ u → M.access t e s r s' →
    guar t e s r s' → rely u s s'
  env_rely : ∀ {t : T} {s s' : σ}, M.env s s' → rely t s s'

section Triples

variable {M : Machine T R σ} (Γ : Protocol M) (t : T)

/-- For `n` more steps, of the thread or of the others, `p` keeps to the protocol, and where
it ends it ends in `Q`. -/
def Safe (Q : α → σ → Prop) : ℕ → Prog R α → σ → Prop
  | 0, _, _ => True
  | n + 1, p, s => (∀ s', Γ.rely t s s' → Safe Q n p s') ∧
    match p with
    | .ret a => Q a s
    | .op e k => ∀ r s', M.access t e s r s' → Γ.guar t e s r s' ∧ Safe Q n (k r) s'
    | .iter body b k => Safe Q n (Prog.unfold body k b) s

/-- `P` survives whatever the other threads do. -/
def Stable (P : σ → Prop) : Prop := ∀ s s', Γ.rely t s s' → P s → P s'

/-- From `P`, program `p` of thread `t` keeps to the protocol and ends in `Q`. -/
def Triple (P : σ → Prop) (p : Prog R α) (Q : α → σ → Prop) : Prop :=
  ∀ n s, P s → Safe Γ t Q n p s

variable {Γ t}

theorem Stable.and {P P' : σ → Prop} (h : Stable Γ t P) (h' : Stable Γ t P') :
    Stable Γ t fun s => P s ∧ P' s :=
  fun s s' hr hP => ⟨h s s' hr hP.1, h' s s' hr hP.2⟩

theorem Stable.exists {ι : Type} {P : ι → σ → Prop} (h : ∀ i, Stable Γ t (P i)) :
    Stable Γ t fun s => ∃ i, P i s :=
  fun s s' hr ⟨i, hi⟩ => ⟨i, h i s s' hr hi⟩

/-! ### The rules -/

/-- Strengthen the precondition. -/
theorem Triple.pre {P P' : σ → Prop} {p : Prog R α} {Q : α → σ → Prop}
    (h : Triple Γ t P p Q) (hP : ∀ s, P' s → P s) : Triple Γ t P' p Q :=
  fun n s hs => h n s (hP s hs)

theorem Safe.post {Q Q' : α → σ → Prop} (hQ : ∀ a s, Q a s → Q' a s) :
    ∀ {n : ℕ} {p : Prog R α} {s : σ}, Safe Γ t Q n p s → Safe Γ t Q' n p s
  | 0, _, _, _ => trivial
  | n + 1, p, s, h => by
    refine ⟨fun s' hr => (h.1 s' hr).post hQ, ?_⟩
    cases p with
    | ret a => exact hQ a s h.2
    | op e k => exact fun r s' ha => ⟨(h.2 r s' ha).1, (h.2 r s' ha).2.post hQ⟩
    | iter body b k => exact Safe.post hQ (p := Prog.unfold body k b) h.2

/-- Weaken the postcondition. -/
theorem Triple.post {P : σ → Prop} {p : Prog R α} {Q Q' : α → σ → Prop}
    (h : Triple Γ t P p Q) (hQ : ∀ a s, Q a s → Q' a s) : Triple Γ t P p Q' :=
  fun n s hs => (h n s hs).post hQ

/-- A fact that does not depend on the state can be assumed outright. -/
theorem Triple.assume {φ : Prop} {P : σ → Prop} {p : Prog R α} {Q : α → σ → Prop}
    (h : φ → Triple Γ t P p Q) : Triple Γ t (fun s => φ ∧ P s) p Q :=
  fun n s hs => h hs.1 n s hs.2

/-- A witness in the precondition can be fixed beforehand. -/
theorem Triple.exists {ι : Type} {P : ι → σ → Prop} {p : Prog R α} {Q : α → σ → Prop}
    (h : ∀ i, Triple Γ t (P i) p Q) : Triple Γ t (fun s => ∃ i, P i s) p Q :=
  fun n s ⟨i, hi⟩ => h i n s hi

theorem Triple.ret {P : σ → Prop} {a : α} {Q : α → σ → Prop} (hst : Stable Γ t P)
    (h : ∀ s, P s → Q a s) : Triple Γ t P (.ret a) Q := by
  intro n
  induction n with
  | zero => exact fun _ _ => trivial
  | succ n ih => exact fun s hs => ⟨fun s' hr => ih s' (hst s s' hr hs), h s hs⟩

/-- One access: it keeps to the guarantee and leads to what the rest starts from. -/
theorem Triple.op {P : σ → Prop} {e : E} {k : R e → Prog R α} {K : R e → σ → Prop}
    {Q : α → σ → Prop} (hst : Stable Γ t P)
    (h : ∀ s r s', P s → M.access t e s r s' → Γ.guar t e s r s' ∧ K r s')
    (hk : ∀ r, Triple Γ t (K r) (k r) Q) : Triple Γ t P (.op e k) Q := by
  intro n
  induction n with
  | zero => exact fun _ _ => trivial
  | succ n ih =>
    refine fun s hs => ⟨fun s' hr => ih s' (hst s s' hr hs), fun r s' ha => ?_⟩
    have hg := h s r s' hs ha
    exact ⟨hg.1, hk r n s' hg.2⟩

private theorem Safe.bind {f : α → Prog R β} {Q : α → σ → Prop} {Q' : β → σ → Prop} :
    ∀ {n : ℕ}, (∀ m ≤ n, ∀ a s, Q a s → Safe Γ t Q' m (f a) s) → ∀ {p : Prog R α} {s : σ},
      Safe Γ t Q n p s → Safe Γ t Q' n (p.bind f) s
  | 0, _, _, _, _ => trivial
  | n + 1, hf, p, s, h => by
    have hf' : ∀ m ≤ n, ∀ a s, Q a s → Safe Γ t Q' m (f a) s := fun m hm => hf m (by omega)
    cases p with
    | ret a => exact hf (n + 1) (Nat.le_refl _) a s h.2
    | op e k =>
      exact ⟨fun s' hr => Safe.bind hf' (h.1 s' hr),
        fun r s' ha => ⟨(h.2 r s' ha).1, Safe.bind hf' (h.2 r s' ha).2⟩⟩
    | iter body b k =>
      refine ⟨fun s' hr => Safe.bind hf' (h.1 s' hr), ?_⟩
      have := Safe.bind hf' h.2
      rwa [Prog.unfold_bind] at this

/-- Sequencing. -/
theorem Triple.bind {P : σ → Prop} {p : Prog R α} {f : α → Prog R β} {Q : α → σ → Prop}
    {Q' : β → σ → Prop} (hp : Triple Γ t P p Q) (hf : ∀ a, Triple Γ t (Q a) (f a) Q') :
    Triple Γ t P (p.bind f) Q' :=
  fun n s hs => Safe.bind (fun m _ a s ha => hf a m s ha) (hp n s hs)

/-- **Loop rule.** `I` is what holds between two rounds, `J` what holds at the exit. -/
theorem Triple.iter {body : β → Prog R (β ⊕ γ)} {k : γ → Prog R α} {I : β → σ → Prop}
    {J : γ → σ → Prop} {Q : α → σ → Prop} (hst : ∀ b, Stable Γ t (I b))
    (hbody : ∀ b, Triple Γ t (I b) (body b) fun r s => Sum.elim (I · s) (J · s) r)
    (hk : ∀ c, Triple Γ t (J c) (k c) Q) (b : β) : Triple Γ t (I b) (.iter body b k) Q := by
  -- strong induction on the step index: the next round runs on fewer steps
  suffices key : ∀ n b s, I b s → Safe Γ t Q n (.iter body b k) s from fun n s hs => key n b s hs
  intro n
  induction n using Nat.strongRecOn with
  | ind n ih =>
    intro b s hs
    cases n with
    | zero => trivial
    | succ n =>
      refine ⟨fun s' hr => ih n (by omega) b s' (hst b s s' hr hs), ?_⟩
      refine Safe.bind (fun m hm r s' hr => ?_) (hbody b n s hs)
      cases r with
      | inl b' => exact ih m (by omega) b' s' hr
      | inr c => exact hk c m s' hr

/-- A predicate of what is left to run and the state, kept by every step, holds at the end. -/
theorem Triple.of_step {K : Prog R α → σ → Prop} {Q : α → σ → Prop}
    (hst : ∀ p, Stable Γ t (K p)) (hret : ∀ a s, K (.ret a) s → Q a s)
    (hop : ∀ e k s r s', K (.op e k) s → M.access t e s r s' →
      Γ.guar t e s r s' ∧ K (k r) s')
    (hiter : ∀ {β γ : Type} (body : β → Prog R (β ⊕ γ)) b k s, K (.iter body b k) s →
      K (Prog.unfold body k b) s) (p : Prog R α) : Triple Γ t (K p) p Q := by
  intro n
  induction n generalizing p with
  | zero => exact fun _ _ => trivial
  | succ n ih =>
    refine fun s hs => ⟨fun s' hr => ih p s' (hst p s s' hr hs), ?_⟩
    cases p with
    | ret a => exact hret a s hs
    | op e k =>
      intro r s' ha
      obtain ⟨hguar, hk⟩ := hop e k s r s' hs ha
      exact ⟨hguar, ih (k r) s' hk⟩
    | iter body b k => exact ih _ s (hiter body b k s hs)

theorem Triple.loop {body : β → Prog R (β ⊕ γ)} {I : β → σ → Prop} {J : γ → σ → Prop}
    (hst : ∀ b, Stable Γ t (I b)) (hstJ : ∀ c, Stable Γ t (J c))
    (hbody : ∀ b, Triple Γ t (I b) (body b) fun r s => Sum.elim (I · s) (J · s) r) (b : β) :
    Triple Γ t (I b) (Prog.loop body b) J :=
  Triple.iter hst hbody (fun c => .ret (hstJ c) fun _ hs => hs) b

/-- One access, answered to the caller. -/
theorem Triple.call {P : σ → Prop} {e : E} {Q : R e → σ → Prop} (hst : Stable Γ t P)
    (hstQ : ∀ r, Stable Γ t (Q r))
    (h : ∀ s r s', P s → M.access t e s r s' → Γ.guar t e s r s' ∧ Q r s') :
    Triple Γ t P (Prog.call e) Q :=
  .op hst h fun r => .ret (hstQ r) fun _ hs => hs

/-- Polling: every read that does not pass keeps `P`, the one that passes leads to `Q`. -/
theorem Triple.poll {P : σ → Prop} {e : E} {done : R e → Bool} {Q : R e → σ → Prop}
    (hst : Stable Γ t P) (hstQ : ∀ r, Stable Γ t (Q r))
    (h : ∀ s r s', P s → M.access t e s r s' →
      Γ.guar t e s r s' ∧ if done r then Q r s' else P s') :
    Triple Γ t P (Prog.poll e done) Q := by
  refine Triple.loop (I := fun _ => P) (fun _ => hst) hstQ (fun _ => ?_) ()
  refine Triple.op (K := fun r s => if done r then Q r s else P s) hst h fun r => ?_
  cases hd : done r with
  | true => exact Triple.ret (by simpa using hstQ r) fun s hs => by simpa using hs
  | false => exact Triple.ret (by simpa using hst) fun s hs => by simpa using hs

/-- `for i in range(n)`: `I i` holds before round `i`. -/
theorem Triple.forRange {f : ℕ → Prog R Unit} {I : ℕ → σ → Prop} {n : ℕ}
    (hst : Stable Γ t (I n))
    (hf : ∀ i < n, Triple Γ t (I i) (f i) fun _ => I (i + 1)) :
    Triple Γ t (I 0) (Prog.forRange f 0 n) fun _ => I n := by
  suffices key : ∀ m i, i + m = n →
      Triple Γ t (I i) (Prog.forRange f i m) fun _ => I n from key n 0 (by omega)
  intro m
  induction m with
  | zero =>
    rintro i rfl
    exact .ret hst fun _ hs => hs
  | succ m ih =>
    intro i hi
    exact (hf i (by omega)).bind fun _ => ih (i + 1) (by omega)

/-- `for x in xs`: `I done` holds after the elements `done`. -/
theorem Triple.forEach {f : β → Prog R Unit} {I : List β → σ → Prop} {xs : List β}
    (hst : Stable Γ t (I xs))
    (hf : ∀ done x rest, xs = done ++ x :: rest →
      Triple Γ t (I done) (f x) fun _ => I (done ++ [x])) :
    Triple Γ t (I []) (Prog.forEach f xs) fun _ => I xs := by
  suffices key : ∀ rest done, xs = done ++ rest →
      Triple Γ t (I done) (Prog.forEach f rest) fun _ => I xs from key xs [] rfl
  intro rest
  induction rest with
  | nil =>
    intro done hd
    rw [List.append_nil] at hd
    subst hd
    exact .ret hst fun _ hs => hs
  | cons x rest ih =>
    intro done hd
    exact (hf done x rest hd).bind fun _ => ih (done ++ [x]) (by simpa using hd)

/-! ### Reading safety off -/

/-- A thread that has ended is in its postcondition. -/
theorem Safe.result {t : T} {Q : α → σ → Prop} {p : Prog R α} {s : σ} {a : α}
    (h : ∀ n, Safe Γ t Q n p s) (hp : p = .ret a) : Q a s := by
  subst hp
  exact (h 1).2

/-- The next access of a thread keeps to its guarantee. -/
theorem Safe.guarantee {t : T} {Q : α → σ → Prop} {p : Prog R α} {s s' : σ} {e : E}
    {k : R e → Prog R α} {r : R e} (h : ∀ n, Safe Γ t Q n p s) (hp : p = .op e k)
    (ha : M.access t e s r s') : Γ.guar t e s r s' := by
  subst hp
  exact ((h 1).2 r s' ha).1

end Triples

/-! ### Soundness -/

section Soundness

variable {M : Machine T R σ} (Γ : Protocol M) [DecidableEq T]

/-- Every step of the machine keeps every thread safe. -/
theorem Protocol.step {Q : T → α → σ → Prop} {c c' : Config T R α σ} {l : Label T}
    (h : ∀ t n, Safe Γ t (Q t) n (c.threads t) c.shared) (hs : M.Step c l c') :
    ∀ t n, Safe Γ t (Q t) n (c'.threads t) c'.shared := by
  intro u n
  cases hs with
  | @access s s' ts t e k r ht ha =>
    have hsafe := (h t (n + 1)).2
    simp only [ht] at hsafe
    by_cases hut : u = t
    · subst hut
      simpa using (hsafe r s' ha).2
    · have hr : Γ.rely u s s' := Γ.guar_rely (Ne.symm hut) ha (hsafe r s' ha).1
      simpa [Function.update_of_ne hut] using (h u (n + 1)).1 s' hr
  | @unfold s ts t β γ body b k ht =>
    by_cases hut : u = t
    · subst hut
      have hsafe := (h u (n + 1)).2
      simp only [ht] at hsafe
      simpa using hsafe
    · simpa [Function.update_of_ne hut] using h u n
  | env he => exact (h u (n + 1)).1 _ (Γ.env_rely he)

/-- **Soundness.** If every thread has a triple and the preconditions hold at the start, then
every thread is safe in every reachable configuration. -/
theorem Protocol.sound {P : T → σ → Prop} {Q : T → α → σ → Prop} {c₀ c : Config T R α σ}
    (h : ∀ t, Triple Γ t (P t) (c₀.threads t) (Q t)) (h₀ : ∀ t, P t c₀.shared)
    (hc : M.Reach c₀ c) : ∀ t n, Safe Γ t (Q t) n (c.threads t) c.shared :=
  hc.induction (P := fun c => ∀ t n, Safe Γ t (Q t) n (c.threads t) c.shared)
    (fun t n => h t n _ (h₀ t)) fun _ _ _ _ ih hs => Γ.step ih hs

/-- **Invariants.** What every guaranteed access and every move of the environment keeps
holds in every reachable configuration. -/
theorem Protocol.invariant {I : σ → Prop} {P : T → σ → Prop} {Q : T → α → σ → Prop}
    {c₀ c : Config T R α σ} (h : ∀ t, Triple Γ t (P t) (c₀.threads t) (Q t))
    (h₀ : ∀ t, P t c₀.shared) (hI₀ : I c₀.shared)
    (hguar : ∀ t e s r s', M.access t e s r s' → Γ.guar t e s r s' → I s → I s')
    (henv : ∀ s s', M.env s s' → I s → I s') (hc : M.Reach c₀ c) : I c.shared := by
  refine hc.induction (P := fun c => I c.shared) hI₀ fun c l c' hr ih hs => ?_
  have hsafe := Γ.sound h h₀ hr
  cases hs with
  | access ht ha => exact hguar _ _ _ _ _ ha (Safe.guarantee (hsafe _) ht ha) ih
  | unfold ht => exact ih
  | env he => exact henv _ _ he ih

end Soundness

end Effect
