import Inmojomni.Effect.Trace

/-!
# Recorded accesses

`Machine.recorded` runs a machine together with a history variable: the accesses made so far,
newest first, each with the thread that made it and the answer it got. Statements about what
a thread has done, rather than about where its program stands, are statements about the
record. The machine takes no notice of it: every run has a recorded one (`Reach.recorded`).
`Machine.track` is the same with any variable that the accesses determine.
-/

namespace Effect

/-- An access that a thread has made. -/
structure Event (T : Type) {E : Type} (R : E → Type) where
  thread : T
  op : E
  answer : R op

variable {T E : Type} {R : E → Type} {α σ : Type}

namespace Machine

/-- The machine with a history variable, which `upd` changes with every access. -/
def track {γ : Type} (M : Machine T R σ) (upd : T → (e : E) → σ → R e → γ → γ) :
    Machine T R (σ × γ) where
  access t e s r s' := M.access t e s.1 r s'.1 ∧ s'.2 = upd t e s.1 r s.2
  env s s' := M.env s.1 s'.1 ∧ s'.2 = s.2

/-- The machine with a record of the accesses, newest first. -/
def recorded (M : Machine T R σ) : Machine T R (σ × List (Event T R)) where
  access t e s r s' := M.access t e s.1 r s'.1 ∧ s'.2 = ⟨t, e, r⟩ :: s.2
  env s s' := M.env s.1 s'.1 ∧ s'.2 = s.2

/-- The answer functions of a schedule, with the record kept. -/
def recordedAnswer (acc : T → (e : E) → σ → Option (R e × σ)) (t : T) (e : E)
    (s : σ × List (Event T R)) : Option (R e × (σ × List (Event T R))) :=
  (acc t e s.1).map fun p => (p.1, p.2, ⟨t, e, p.1⟩ :: s.2)

theorem recorded_access_of_answer {M : Machine T R σ}
    {acc : T → (e : E) → σ → Option (R e × σ)}
    (hacc : ∀ t e s p, acc t e s = some p → M.access t e s p.1 p.2) (t : T) (e : E)
    (s : σ × List (Event T R)) (p : R e × (σ × List (Event T R)))
    (h : recordedAnswer acc t e s = some p) : M.recorded.access t e s p.1 p.2 := by
  obtain ⟨q, hq, rfl⟩ := Option.map_eq_some_iff.mp h
  exact ⟨hacc t e s.1 q hq, rfl⟩

variable [DecidableEq T]

/-- **A history variable restricts nothing.** What is reachable is reachable with some value
of it. -/
theorem Reach.track {γ : Type} {M : Machine T R σ} (upd : T → (e : E) → σ → R e → γ → γ) (g₀ : γ)
    {s₀ : σ} {ts₀ : T → Prog R α} {c : Config T R α σ} (h : M.Reach ⟨s₀, ts₀⟩ c) :
    ∃ g, (M.track upd).Reach ⟨(s₀, g₀), ts₀⟩ ⟨(c.shared, g), c.threads⟩ := by
  refine h.induction (P := fun c => ∃ g, (M.track upd).Reach ⟨(s₀, g₀), ts₀⟩
    ⟨(c.shared, g), c.threads⟩) ⟨g₀, .refl _⟩ ?_
  rintro c l c' - ⟨g, hg⟩ hs
  cases hs with
  | access ht ha => exact ⟨_, hg.step (.access ht ⟨ha, rfl⟩)⟩
  | unfold ht => exact ⟨g, hg.step (.unfold ht)⟩
  | env he => exact ⟨g, hg.step (.env ⟨he, rfl⟩)⟩

/-- **Recording restricts nothing.** What is reachable is reachable with some record. -/
theorem Reach.recorded {M : Machine T R σ} {s₀ : σ} {ts₀ : T → Prog R α} {c : Config T R α σ}
    (h : M.Reach ⟨s₀, ts₀⟩ c) :
    ∃ tr, M.recorded.Reach ⟨(s₀, []), ts₀⟩ ⟨(c.shared, tr), c.threads⟩ := by
  refine h.induction (P := fun c => ∃ tr, M.recorded.Reach ⟨(s₀, []), ts₀⟩
    ⟨(c.shared, tr), c.threads⟩) ⟨[], .refl _⟩ ?_
  rintro c l c' - ⟨tr, htr⟩ hs
  cases hs with
  | access ht ha => exact ⟨_, htr.step (.access ht ⟨ha, rfl⟩)⟩
  | unfold ht => exact ⟨tr, htr.step (.unfold ht)⟩
  | env he => exact ⟨tr, htr.step (.env ⟨he, rfl⟩)⟩

end Machine

end Effect
