import Mathlib.Control.Monad.Basic
import Mathlib.Data.List.Basic

/-!
# Computations that can fail

What a computation in `Except` needs to end well: a sequence ends well when its parts do, and a
loop over a list when every round does. `Fails E` says which failures there can be.
-/

namespace Fallible

variable {ε α β : Type}

@[simp] theorem ok_bind (a : α) (f : α → Except ε β) : (Except.ok a >>= f) = f a := rfl

theorem bind_eq_ok_iff {x : Except ε α} {f : α → Except ε β} {b : β} :
    (x >>= f) = .ok b ↔ ∃ a, x = .ok a ∧ f a = .ok b := by
  cases x with
  | ok a => simp [bind, Except.bind]
  | error e => simp [bind, Except.bind]

theorem map_eq_ok_iff {x : Except ε α} {f : α → β} {b : β} :
    f <$> x = .ok b ↔ ∃ a, x = .ok a ∧ f a = b := by
  cases x with
  | ok a => simp [Functor.map, Except.map]
  | error e => simp [Functor.map, Except.map]

/-- A check that raises where `p` holds. -/
theorem ite_error_eq_ok_iff {p : Prop} [Decidable p] {e : ε} {x : Except ε α} {a : α} :
    (if p then .error e else x) = .ok a ↔ ¬p ∧ x = .ok a := by
  by_cases hp : p
  · rw [if_pos hp]
    exact iff_of_false nofun fun h => h.1 hp
  · rw [if_neg hp]
    exact (and_iff_right hp).symm

/-- A loop whose rounds have known results. -/
theorem mapM_eq_ok {f : α → Except ε β} {g : α → β} {l : List α}
    (h : ∀ a ∈ l, f a = .ok (g a)) : l.mapM f = .ok (l.map g) := by
  induction l with
  | nil => rfl
  | cons a l ih =>
    rw [List.mapM_cons, h a List.mem_cons_self, ih fun b hb => h b (List.mem_cons_of_mem a hb)]
    rfl

/-- A loop ends well exactly when all of its rounds do. -/
theorem mapM_eq_ok_iff {f : α → Except ε β} {P : α → Prop} {g : α → β}
    (h : ∀ a b, f a = .ok b ↔ P a ∧ b = g a) {l : List α} {bs : List β} :
    l.mapM f = .ok bs ↔ (∀ a ∈ l, P a) ∧ bs = l.map g := by
  induction l generalizing bs with
  | nil =>
    rw [List.mapM_nil, List.map_nil]
    constructor
    · intro hbs
      exact ⟨fun a ha => absurd ha List.not_mem_nil, (Except.ok.inj hbs).symm⟩
    · rintro ⟨-, rfl⟩
      rfl
  | cons a l ih =>
    rw [List.mapM_cons, bind_eq_ok_iff, List.forall_mem_cons]
    constructor
    · rintro ⟨b, hb, hbs⟩
      obtain ⟨bs', hbs', hcons⟩ := bind_eq_ok_iff.mp hbs
      obtain ⟨hP, rfl⟩ := (h a b).mp hb
      obtain ⟨hPs, rfl⟩ := ih.mp hbs'
      exact ⟨⟨hP, hPs⟩, (Except.ok.inj hcons).symm⟩
    · rintro ⟨⟨hP, hPs⟩, rfl⟩
      exact ⟨g a, (h a _).mpr ⟨hP, rfl⟩, bind_eq_ok_iff.mpr ⟨_, ih.mpr ⟨hPs, rfl⟩, rfl⟩⟩

/-- A loop with an accumulator whose rounds have known results. -/
theorem foldlM_eq_ok {f : β → α → Except ε β} {g : β → α → β} {l : List α}
    (h : ∀ a ∈ l, ∀ b, f b a = .ok (g b a)) (b : β) : l.foldlM f b = .ok (l.foldl g b) := by
  induction l generalizing b with
  | nil => rfl
  | cons a l ih =>
    rw [List.foldlM_cons, h a List.mem_cons_self b]
    exact ih (fun a' ha' => h a' (List.mem_cons_of_mem a ha')) (g b a)

/-- A loop with an accumulator ends well exactly when all of its rounds do. -/
theorem foldlM_eq_ok_iff {f : β → α → Except ε β} {P : α → Prop} {g : β → α → β}
    (h : ∀ b a b', f b a = .ok b' ↔ P a ∧ b' = g b a) {l : List α} {b b' : β} :
    l.foldlM f b = .ok b' ↔ (∀ a ∈ l, P a) ∧ b' = l.foldl g b := by
  induction l generalizing b with
  | nil =>
    rw [List.foldlM_nil, List.foldl_nil]
    constructor
    · intro hb
      exact ⟨fun a ha => absurd ha List.not_mem_nil, (Except.ok.inj hb).symm⟩
    · rintro ⟨-, rfl⟩
      rfl
  | cons a l ih =>
    rw [List.foldlM_cons, bind_eq_ok_iff, List.forall_mem_cons]
    constructor
    · rintro ⟨b₁, hb₁, hb'⟩
      obtain ⟨hP, rfl⟩ := (h b a b₁).mp hb₁
      obtain ⟨hPs, rfl⟩ := ih.mp hb'
      exact ⟨⟨hP, hPs⟩, rfl⟩
    · rintro ⟨⟨hP, hPs⟩, rfl⟩
      exact ⟨g b a, (h b a _).mpr ⟨hP, rfl⟩, ih.mpr ⟨hPs, rfl⟩⟩

/-! ### How a computation fails -/

/-- The computation fails in one of the ways `E` only. -/
def Fails (E : ε → Prop) (x : Except ε α) : Prop := ∀ e, x = .error e → E e

variable {E : ε → Prop}

theorem Fails.ok (a : α) : Fails E (.ok a) := fun _ h => nomatch h

theorem Fails.error {e : ε} (h : E e) : Fails E (.error e : Except ε α) := fun _ he =>
  Except.error.inj he ▸ h

theorem Fails.bind {x : Except ε α} {f : α → Except ε β} (hx : Fails E x)
    (hf : ∀ a, Fails E (f a)) : Fails E (x >>= f) := by
  cases x with
  | ok a => exact hf a
  | error e => exact Fails.error (hx e rfl)

theorem Fails.map {x : Except ε α} (hx : Fails E x) (f : α → β) : Fails E (f <$> x) := by
  cases x with
  | ok a => exact Fails.ok (f a)
  | error e => exact Fails.error (hx e rfl)

theorem Fails.mapM {f : α → Except ε β} (hf : ∀ a, Fails E (f a)) (l : List α) :
    Fails E (l.mapM f) := by
  induction l with
  | nil => exact Fails.ok []
  | cons a l ih =>
    rw [List.mapM_cons]
    exact (hf a).bind fun b => ih.bind fun bs => Fails.ok (b :: bs)

theorem Fails.foldlM {f : β → α → Except ε β} (hf : ∀ b a, Fails E (f b a)) (l : List α) (b : β) :
    Fails E (l.foldlM f b) := by
  induction l generalizing b with
  | nil => exact Fails.ok b
  | cons a l ih =>
    rw [List.foldlM_cons]
    exact (hf b a).bind ih

/-- It ends well, or in one of these ways. -/
theorem Fails.ok_or_error {x : Except ε α} (h : Fails E x) :
    (∃ a, x = .ok a) ∨ ∃ e, E e ∧ x = .error e := by
  cases x with
  | ok a => exact Or.inl ⟨a, rfl⟩
  | error e => exact Or.inr ⟨e, h e rfl, rfl⟩

end Fallible
