import Mathlib.Logic.Relation
import Mathlib.Logic.Function.Basic
import Mathlib.Control.Monad.Basic
import Mathlib.Data.Nat.Notation

/-!
# Programs over an operation signature

A `Prog R α` is a program whose only contact with its surroundings are the operations
`e : E`, each answered by a value of type `R e`. It is a free monad with one extra node:
`iter` is an unbounded loop, so that a polling loop is a finite tree and keeps every single
access of every round.

Two readings of a program are given here.

* `Exec` is the big-step reading for one program alone: what a complete execution answers
  and which state it leaves behind. It is a relation, since an access relation may leave
  open what a register reads as.
* `Machine` runs a family of programs against one shared state, one access at a time and in
  any order (`Machine.Step`), with an environment that may act between any two accesses.
  `Machine.Run` keeps the labels of the steps taken; `Machine.Reach` forgets them.

`Machine.Reach.of_play` turns an executable schedule into a run, so that concrete
interleavings can be evaluated.
-/

namespace Effect

/-- A program whose operations `e : E` are answered in `R e`. `iter body b k` runs `body`
from the loop state `b` until it answers `inr c`, then goes on with `k c`. -/
inductive Prog {E : Type} (R : E → Type) : Type → Type 1
  | ret {α : Type} (a : α) : Prog R α
  | op {α : Type} (e : E) (k : R e → Prog R α) : Prog R α
  | iter {α β γ : Type} (body : β → Prog R (β ⊕ γ)) (b : β) (k : γ → Prog R α) : Prog R α

namespace Prog

variable {E : Type} {R : E → Type} {α β γ δ : Type}

/-- Sequencing: graft `f` onto the leaves. -/
def bind : {α : Type} → Prog R α → (α → Prog R δ) → Prog R δ
  | _, .ret a, f => f a
  | _, .op e k, f => .op e fun r => (k r).bind f
  | _, .iter body b k, f => .iter body b fun c => (k c).bind f

instance : Monad (Prog R) where
  pure := .ret
  bind := bind

@[simp] theorem pure_eq (a : α) : (pure a : Prog R α) = .ret a := rfl

@[simp] theorem bind_eq (p : Prog R α) (f : α → Prog R β) : p >>= f = p.bind f := rfl

@[simp] theorem ret_bind (a : α) (f : α → Prog R δ) : (ret a : Prog R α).bind f = f a := rfl

@[simp] theorem op_bind (e : E) (k : R e → Prog R α) (f : α → Prog R δ) :
    (op e k).bind f = op e fun r => (k r).bind f := rfl

@[simp] theorem iter_bind (body : β → Prog R (β ⊕ γ)) (b : β) (k : γ → Prog R α)
    (f : α → Prog R δ) :
    (iter body b k).bind f = iter body b fun c => (k c).bind f := rfl

theorem bind_ret (p : Prog R α) : p.bind .ret = p := by
  induction p with
  | ret a => rfl
  | op e k ih => simp only [op_bind, ih]
  | iter body b k _ ih => simp only [iter_bind, ih]

theorem bind_assoc (p : Prog R α) (f : α → Prog R β) (g : β → Prog R γ) :
    (p.bind f).bind g = p.bind fun a => (f a).bind g := by
  induction p with
  | ret a => rfl
  | op e k ih => simp only [op_bind, ih]
  | iter body b k _ ih => simp only [iter_bind, ih]

instance : LawfulMonad (Prog R) :=
  LawfulMonad.mk' (Prog R) (fun p => bind_ret p) (fun _ _ => rfl) fun p f g => bind_assoc p f g

/-- One operation, answered to the caller. -/
def call (e : E) : Prog R (R e) := .op e .ret

/-- One round of a loop, followed by the rest of it. -/
def unfold (body : β → Prog R (β ⊕ γ)) (k : γ → Prog R α) (b : β) : Prog R α :=
  (body b).bind (Sum.elim (fun b' => .iter body b' k) k)

/-- `while`-style loop: run `body` until it answers `inr`. -/
def loop (body : β → Prog R (β ⊕ γ)) (b : β) : Prog R γ := .iter body b .ret

/-- Repeat `e` until its answer passes `done`, and answer with that answer: the shape of
`while not done(read()): pass`. -/
def poll (e : E) (done : R e → Bool) : Prog R (R e) :=
  loop (fun _ : Unit => .op e fun r => .ret (if done r then .inr r else .inl ())) ()

/-- `for i in range(n)`: `f start`, `f (start + 1)`, …, `f (start + n - 1)`. -/
def forRange (f : ℕ → Prog R Unit) : ℕ → ℕ → Prog R Unit
  | _, 0 => .ret ()
  | start, n + 1 => (f start).bind fun _ => forRange f (start + 1) n

/-- `for x in xs`: run `f x` for each element in order. -/
def forEach (f : β → Prog R Unit) : List β → Prog R Unit
  | [] => .ret ()
  | x :: xs => (f x).bind fun _ => forEach f xs

theorem forEach_append (f : β → Prog R Unit) (xs ys : List β) :
    forEach f (xs ++ ys) = (forEach f xs).bind fun _ => forEach f ys := by
  induction xs with
  | nil => rfl
  | cons x xs ih => rw [List.cons_append, forEach, forEach, ih, bind_assoc]

end Prog

/-! ### One program alone -/

section Exec

variable {E : Type} {R : E → Type} {σ : Type} (access : (e : E) → σ → R e → σ → Prop)

/-- `Exec access p s a s'`: run from `s`, program `p` can answer `a` and leave `s'`. -/
inductive Exec : {α : Type} → Prog R α → σ → α → σ → Prop
  | ret {α : Type} (a : α) (s : σ) : Exec (.ret a) s a s
  | op {α : Type} {e : E} {k : R e → Prog R α} {s s' s'' : σ} {r : R e} {a : α}
      (he : access e s r s') (hk : Exec (k r) s' a s'') : Exec (.op e k) s a s''
  | iter {α β γ : Type} {body : β → Prog R (β ⊕ γ)} {b : β} {k : γ → Prog R α} {s s' : σ} {a : α}
      (h : Exec (Prog.unfold body k b) s a s') : Exec (.iter body b k) s a s'

variable {access} {α β : Type}

@[simp] theorem exec_ret {a b : α} {s s' : σ} :
    Exec access (.ret a) s b s' ↔ b = a ∧ s' = s := by
  constructor
  · intro h
    cases h
    exact ⟨rfl, rfl⟩
  · rintro ⟨rfl, rfl⟩
    exact .ret _ _

@[simp] theorem exec_op {e : E} {k : R e → Prog R α} {s s'' : σ} {a : α} :
    Exec access (.op e k) s a s'' ↔ ∃ r s', access e s r s' ∧ Exec access (k r) s' a s'' := by
  constructor
  · intro h
    cases h with
    | op he hk => exact ⟨_, _, he, hk⟩
  · rintro ⟨r, s', he, hk⟩
    exact .op he hk

theorem exec_iter {β γ : Type} {body : β → Prog R (β ⊕ γ)} {b : β} {k : γ → Prog R α} {s s' : σ}
    {a : α} :
    Exec access (.iter body b k) s a s' ↔ Exec access (Prog.unfold body k b) s a s' := by
  constructor
  · intro h
    cases h with
    | iter h => exact h
  · exact .iter

/-- A loop followed by `f` unfolds to one round followed by the rest of that loop. -/
theorem Prog.unfold_bind {β γ δ : Type} (body : β → Prog R (β ⊕ γ)) (k : γ → Prog R α)
    (f : α → Prog R δ) (b : β) :
    (Prog.unfold body k b).bind f = Prog.unfold body (fun c => (k c).bind f) b := by
  simp only [Prog.unfold, Prog.bind_assoc]
  congr 1
  funext x
  cases x <;> rfl

private theorem exec_bind_mp {p : Prog R β} {s s'' : σ} {b : β} (h : Exec access p s b s'') :
    ∀ {α : Type} (q : Prog R α) (f : α → Prog R β), p = q.bind f →
      ∃ a s', Exec access q s a s' ∧ Exec access (f a) s' b s'' := by
  induction h with
  | ret b s =>
    intro α q f hq
    cases q with
    | ret a => exact ⟨a, s, .ret _ _, by rw [← Prog.ret_bind a f, ← hq]; exact .ret _ _⟩
    | op e k => cases hq
    | iter body c k => cases hq
  | op he hk ih =>
    intro α q f hq
    cases q with
    | ret a => exact ⟨a, _, .ret _ _, by rw [← Prog.ret_bind a f, ← hq]; exact .op he hk⟩
    | op e k =>
      cases hq
      obtain ⟨a, s', h₁, h₂⟩ := ih _ f rfl
      exact ⟨a, s', .op he h₁, h₂⟩
    | iter body c k => cases hq
  | iter h ih =>
    intro α q f hq
    cases q with
    | ret a => exact ⟨a, _, .ret _ _, by rw [← Prog.ret_bind a f, ← hq]; exact .iter h⟩
    | op e k => cases hq
    | iter body c k =>
      cases hq
      obtain ⟨a, s', h₁, h₂⟩ := ih _ f (Prog.unfold_bind _ _ f _).symm
      exact ⟨a, s', .iter h₁, h₂⟩

private theorem exec_bind_mpr {p : Prog R α} {s s' : σ} {a : α} (h : Exec access p s a s') :
    ∀ {β : Type} (f : α → Prog R β) {s'' : σ} {b : β}, Exec access (f a) s' b s'' →
      Exec access (p.bind f) s b s'' := by
  induction h with
  | ret a s => exact fun f _ _ h' => h'
  | op he _ ih => exact fun f _ _ h' => .op he (ih f h')
  | iter _ ih =>
    intro δ f s'' b h'
    have := ih f h'
    rw [Prog.unfold_bind] at this
    exact .iter this

/-- A sequence executes as its parts, through some state in between. -/
theorem exec_bind {p : Prog R α} {f : α → Prog R β} {s s'' : σ} {b : β} :
    Exec access (p.bind f) s b s'' ↔
      ∃ a s', Exec access p s a s' ∧ Exec access (f a) s' b s'' :=
  ⟨fun h => exec_bind_mp h p f rfl, fun ⟨_, _, h, h'⟩ => exec_bind_mpr h f h'⟩

/-- **Loop rule.** An invariant of the rounds of a loop gives the condition its exit
promises. The induction is on the execution, of which `q` is the rest of the current round. -/
theorem Exec.loop_inv {β γ : Type} {body : β → Prog R (β ⊕ γ)} {I : β → σ → Prop}
    {J : γ → σ → Prop}
    (hbody : ∀ b s r s', I b s → Exec access (body b) s r s' →
      Sum.elim (fun b' => I b' s') (fun c => J c s') r) {b : β} {s s' : σ} {c : γ}
    (hI : I b s) (h : Exec access (Prog.loop body b) s c s') : J c s' := by
  suffices key : ∀ {α : Type} {p : Prog R α} {s s' : σ} {c : α}, Exec access p s c s' →
      ∀ (hα : α = γ) (q : Prog R (β ⊕ γ)),
        hα ▸ p = q.bind (Sum.elim (fun b' => .iter body b' .ret) .ret) →
        (∀ r t, Exec access q s r t → Sum.elim (fun b' => I b' t) (fun c => J c t) r) →
        J (hα ▸ c) s' by
    rw [Prog.loop, exec_iter] at h
    exact key h rfl (body b) rfl fun r t hr => hbody b s r t hI hr
  intro α p s s' c h
  induction h with
  | ret c s =>
    intro hα q hq hinv
    subst hα
    cases q with
    | ret r =>
      cases r with
      | inl b' => cases hq
      | inr c' =>
        cases hq
        exact hinv _ _ (.ret _ _)
    | op e k => cases hq
    | iter body' c k => cases hq
  | op he hk ih =>
    intro hα q hq hinv
    subst hα
    cases q with
    | ret r =>
      cases r with
      | inl b' => cases hq
      | inr c' => cases hq
    | op e k =>
      cases hq
      exact ih rfl _ rfl fun r t hr => hinv r t (.op he hr)
    | iter body' c k => cases hq
  | iter h ih =>
    intro hα q hq hinv
    subst hα
    cases q with
    | ret r =>
      cases r with
      | inl b' =>
        cases hq
        have hb' := hinv _ _ (.ret _ _)
        exact ih rfl (body b') rfl fun r t hr => hbody b' _ r t hb' hr
      | inr c' => cases hq
    | op e k => cases hq
    | iter body' c k =>
      cases hq
      exact ih rfl _ (Prog.unfold_bind _ _ _ _).symm fun r t hr => hinv r t (.iter hr)

end Exec

/-! ### Programs side by side -/

/-- What the programs of the threads `T` share: how an access of thread `t` is answered and
changes the shared state, and what the environment may do to it between two accesses. -/
structure Machine (T : Type) {E : Type} (R : E → Type) (σ : Type) where
  access : T → (e : E) → σ → R e → σ → Prop
  env : σ → σ → Prop := fun _ _ => False

/-- A shared state and what is left to run of every thread. -/
structure Config (T : Type) {E : Type} (R : E → Type) (α σ : Type) where
  shared : σ
  threads : T → Prog R α

/-- Who takes a step. -/
inductive Label (T : Type)
  | access (t : T)
  | unfold (t : T)
  | env

namespace Machine

variable {T E : Type} {R : E → Type} {α σ : Type} [DecidableEq T]

/-- One step: an access of one thread, a loop of one thread going into its next round, or a
move of the environment. -/
inductive Step (M : Machine T R σ) : Config T R α σ → Label T → Config T R α σ → Prop
  | access {s s' : σ} {ts : T → Prog R α} {t : T} {e : E} {k : R e → Prog R α} {r : R e}
      (ht : ts t = .op e k) (ha : M.access t e s r s') :
      Step M ⟨s, ts⟩ (.access t) ⟨s', Function.update ts t (k r)⟩
  | unfold {s : σ} {ts : T → Prog R α} {t : T} {β γ : Type} {body : β → Prog R (β ⊕ γ)} {b : β}
      {k : γ → Prog R α} (ht : ts t = .iter body b k) :
      Step M ⟨s, ts⟩ (.unfold t) ⟨s, Function.update ts t (Prog.unfold body k b)⟩
  | env {s s' : σ} {ts : T → Prog R α} (h : M.env s s') : Step M ⟨s, ts⟩ .env ⟨s', ts⟩

/-- A finite run, with the configuration and the label of every step. -/
inductive Run (M : Machine T R σ) (c₀ : Config T R α σ) :
    List (Config T R α σ × Label T) → Config T R α σ → Prop
  | nil : Run M c₀ [] c₀
  | snoc {ls : List (Config T R α σ × Label T)} {c c' : Config T R α σ} {l : Label T}
      (h : Run M c₀ ls c) (hs : Step M c l c') : Run M c₀ (ls ++ [(c, l)]) c'

/-- `c` is the end of a run from `c₀`. -/
def Reach (M : Machine T R σ) (c₀ c : Config T R α σ) : Prop := ∃ ls, Run M c₀ ls c

theorem Reach.refl {M : Machine T R σ} (c : Config T R α σ) : M.Reach c c := ⟨[], .nil⟩

theorem Reach.step {M : Machine T R σ} {c₀ c c' : Config T R α σ} {l : Label T}
    (h : M.Reach c₀ c) (hs : M.Step c l c') : M.Reach c₀ c' := by
  obtain ⟨ls, h⟩ := h
  exact ⟨_, h.snoc hs⟩

/-- Induction along a run that forgets its labels. -/
theorem Reach.induction {M : Machine T R σ} {c₀ : Config T R α σ} {P : Config T R α σ → Prop}
    (h₀ : P c₀) (hstep : ∀ c l c', M.Reach c₀ c → P c → M.Step c l c' → P c')
    {c : Config T R α σ} (h : M.Reach c₀ c) : P c := by
  obtain ⟨ls, h⟩ := h
  induction h with
  | nil => exact h₀
  | snoc h hs ih => exact hstep _ _ _ ⟨_, h⟩ ih hs

/-- A run goes on where another one ends. -/
theorem Reach.trans {M : Machine T R σ} {c₀ c c' : Config T R α σ} (h : M.Reach c₀ c)
    (h' : M.Reach c c') : M.Reach c₀ c' :=
  h'.induction h fun _ _ _ _ ih hs => ih.step hs

/-! ### Executable schedules -/

/-- One choice of a schedule: thread `t` moves, or the environment makes its move `i`. -/
inductive Choice (T : Type) (ι : Type)
  | thread (t : T)
  | env (i : ι)

/-- The move a choice makes, by answer functions `acc` for the accesses and `env` for the
moves of the environment; `none` when the choice cannot move. -/
def move {ι : Type} (acc : T → (e : E) → σ → Option (R e × σ)) (env : ι → σ → Option σ)
    (c : Config T R α σ) : Choice T ι → Option (Config T R α σ)
  | .thread t =>
    match c.threads t with
    | .ret _ => none
    | .op e k => (acc t e c.shared).map fun p => ⟨p.2, Function.update c.threads t (k p.1)⟩
    | .iter body b k => some ⟨c.shared, Function.update c.threads t (Prog.unfold body k b)⟩
  | .env i => (env i c.shared).map fun s' => ⟨s', c.threads⟩

/-- The configuration a schedule ends in. -/
def play {ι : Type} (acc : T → (e : E) → σ → Option (R e × σ)) (env : ι → σ → Option σ) :
    Config T R α σ → List (Choice T ι) → Option (Config T R α σ)
  | c, [] => some c
  | c, ch :: cs => (move acc env c ch).bind fun c' => play acc env c' cs

theorem Reach.move {M : Machine T R σ} {ι : Type} {acc : T → (e : E) → σ → Option (R e × σ)}
    {env : ι → σ → Option σ} (hacc : ∀ t e s p, acc t e s = some p → M.access t e s p.1 p.2)
    (henv : ∀ i s s', env i s = some s' → M.env s s') {c c' : Config T R α σ} {ch : Choice T ι}
    (h : Machine.move acc env c ch = some c') : ∃ l, M.Step c l c' := by
  obtain ⟨s, ts⟩ := c
  cases ch with
  | thread t =>
    simp only [Machine.move] at h
    cases ht : ts t with
    | ret a => simp [ht] at h
    | op e k =>
      simp only [ht, Option.map_eq_some_iff] at h
      obtain ⟨p, hp, rfl⟩ := h
      exact ⟨_, .access ht (hacc t e s p hp)⟩
    | iter body b k =>
      simp only [ht, Option.some.injEq] at h
      subst h
      exact ⟨_, .unfold ht⟩
  | env i =>
    simp only [Machine.move, Option.map_eq_some_iff] at h
    obtain ⟨s', hs', rfl⟩ := h
    exact ⟨_, .env (henv i s s' hs')⟩

/-- **Schedules are runs.** What an executable schedule ends in is reachable, when its answer
functions only give answers the machine allows. -/
theorem Reach.of_play {M : Machine T R σ} {ι : Type} {acc : T → (e : E) → σ → Option (R e × σ)}
    {env : ι → σ → Option σ} (hacc : ∀ t e s p, acc t e s = some p → M.access t e s p.1 p.2)
    (henv : ∀ i s s', env i s = some s' → M.env s s') {c c' : Config T R α σ}
    (cs : List (Choice T ι)) (h : play acc env c cs = some c') : M.Reach c c' := by
  suffices key : ∀ c₁, M.Reach c c₁ → play acc env c₁ cs = some c' → M.Reach c c' from
    key c (.refl c) h
  clear h
  induction cs with
  | nil =>
    intro c₁ h₁ h
    cases h
    exact h₁
  | cons ch cs ih =>
    intro c₁ h₁ h
    obtain ⟨c₂, hm, h⟩ := Option.bind_eq_some_iff.mp h
    obtain ⟨l, hs⟩ := Reach.move hacc henv hm
    exact ih c₂ (h₁.step hs) h

end Machine

end Effect
