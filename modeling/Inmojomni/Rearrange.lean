import Mathlib.Algebra.Group.Int.Defs
import Mathlib.Data.Int.ConditionallyCompleteOrder
import Mathlib.Data.Int.Order.Basic
import Mathlib.Logic.Equiv.Basic
import Mathlib.Order.ConditionallyCompleteLattice.Basic
import Mathlib.Order.Interval.Set.Defs
import Mathlib.Order.Monotone.Defs

/-!
# Rearranging the cells of an array

`Rearranges s a b` says that `b` has the values of `a` in other places, where only the places in
`s` have changed. What holds of all values in `s` still holds after it (`Rearranges.forall_mem`).

`Partitioned` is the state of a partition around a pivot that goes through the cells from the left
and collects the smaller values at the front. A cell is passed over (`Partitioned.skip`) or
exchanged with the first that is not smaller (`Partitioned.exchange`). In the end the pivot changes
places with that one, and the two sides can be sorted apart from each other
(`monotoneOn_of_sides`).
-/

namespace Rearrange

variable {ι α : Type}

/-- `b` is `a` after a permutation of the places in `s`. -/
def Rearranges (s : Set ι) (a b : ι → α) : Prop :=
  ∃ σ : Equiv.Perm ι, (∀ k ∉ s, σ k = k) ∧ ∀ k, b k = a (σ k)

variable {s t : Set ι} {a b c : ι → α}

namespace Rearranges

theorem refl (s : Set ι) (a : ι → α) : Rearranges s a a :=
  ⟨Equiv.refl ι, fun _ _ => rfl, fun _ => rfl⟩

theorem trans (hab : Rearranges s a b) (hbc : Rearranges s b c) : Rearranges s a c := by
  obtain ⟨σ, hσ, hb⟩ := hab
  obtain ⟨τ, hτ, hc⟩ := hbc
  refine ⟨τ.trans σ, fun k hk => ?_, fun k => ?_⟩
  · rw [Equiv.trans_apply, hτ k hk, hσ k hk]
  · rw [hc, hb, Equiv.trans_apply]

theorem mono (h : Rearranges s a b) (hst : s ⊆ t) : Rearranges t a b := by
  obtain ⟨σ, hσ, hb⟩ := h
  exact ⟨σ, fun k hk => hσ k fun hs => hk (hst hs), hb⟩

/-- Elsewhere nothing has changed. -/
theorem eq_of_notMem (h : Rearranges s a b) {k : ι} (hk : k ∉ s) : b k = a k := by
  obtain ⟨σ, hσ, hb⟩ := h
  rw [hb, hσ k hk]

/-- The values in `s` come from `s`. -/
theorem forall_mem (h : Rearranges s a b) {P : α → Prop} (hP : ∀ k ∈ s, P (a k)) :
    ∀ k ∈ s, P (b k) := by
  obtain ⟨σ, hσ, hb⟩ := h
  intro k hk
  rw [hb]
  refine hP _ ?_
  by_contra hout
  have hfix : σ k = k := σ.injective (hσ _ hout)
  exact hout (hfix.symm ▸ hk)

variable [DecidableEq ι]

/-- Two cells exchanged, the first one written first. -/
theorem exchange {i j : ι} (hi : i ∈ s) (hj : j ∈ s) (a : ι → α) :
    Rearranges s a (Function.update (Function.update a i (a j)) j (a i)) := by
  refine ⟨Equiv.swap i j, fun k hk => ?_, fun k => ?_⟩
  · exact Equiv.swap_apply_of_ne_of_ne (ne_of_mem_of_not_mem hi hk).symm
      (ne_of_mem_of_not_mem hj hk).symm
  · rcases eq_or_ne k j with rfl | hkj
    · rw [Function.update_self, Equiv.swap_apply_right]
    · rw [Function.update_of_ne hkj]
      rcases eq_or_ne k i with rfl | hki
      · rw [Function.update_self, Equiv.swap_apply_left]
      · rw [Function.update_of_ne hki, Equiv.swap_apply_of_ne_of_ne hki hkj]

end Rearranges

/-! ### Partitions -/

section Partition

variable {κ : Type} [LinearOrder κ] {key : α → κ} {a b c : ℤ → α} {lo hi i j : ℤ} {p : κ}

/-- The cells from `lo` to `hi`, `hi` apart, with those before `j` sorted out: before `i` are those
with a key below `p`. -/
structure Partitioned (key : α → κ) (lo hi : ℤ) (p : κ) (a b : ℤ → α) (i j : ℤ) : Prop where
  lo_le : lo ≤ i
  le : i ≤ j
  le_hi : j ≤ hi
  rearranged : Rearranges (Set.Ico lo hi) a b
  below : ∀ k, lo ≤ k → k < i → key (b k) < p
  above : ∀ k, i ≤ k → k < j → p ≤ key (b k)

theorem Partitioned.start (h : lo ≤ hi) : Partitioned key lo hi p a a lo lo where
  lo_le := le_rfl
  le := le_rfl
  le_hi := h
  rearranged := .refl _ a
  below k hlo hlt := by omega
  above k hlo hlt := by omega

theorem Partitioned.skip (h : Partitioned key lo hi p a b i j) (hj : j < hi)
    (hge : ¬ key (b j) < p) : Partitioned key lo hi p a b i (j + 1) where
  lo_le := h.lo_le
  le := h.le.trans (Int.le_add_one le_rfl)
  le_hi := hj
  rearranged := h.rearranged
  below := h.below
  above k hik hkj := by
    rcases eq_or_ne k j with rfl | hne
    · exact not_lt.mp hge
    · exact h.above k hik (by omega)

theorem Partitioned.exchange (h : Partitioned key lo hi p a b i j) (hj : j < hi)
    (hlt : key (b j) < p) : Partitioned key lo hi p a
      (Function.update (Function.update b i (b j)) j (b i)) (i + 1) (j + 1) := by
  obtain ⟨hlo, hij, -, hre, hbelow, habove⟩ := h
  refine ⟨by omega, by omega, hj, hre.trans (.exchange ?_ ?_ b), fun k hk hki => ?_,
    fun k hk hkj => ?_⟩
  · exact ⟨hlo, hij.trans_lt hj⟩
  · exact ⟨hlo.trans hij, hj⟩
  · rcases eq_or_ne k j with rfl | hkj
    · -- no larger one has been met, the cell changes places with itself
      obtain rfl : i = k := by omega
      rwa [Function.update_self]
    · rw [Function.update_of_ne hkj]
      rcases eq_or_ne k i with rfl | hki'
      · rwa [Function.update_self]
      · rw [Function.update_of_ne hki']
        exact hbelow k hk (by omega)
  · rcases eq_or_ne k j with rfl | hkj'
    · rw [Function.update_self]
      exact habove i le_rfl (by omega)
    · rw [Function.update_of_ne hkj', Function.update_of_ne (by omega : k ≠ i)]
      exact habove k (by omega) (by omega)

/-- The pivot goes between the two sides. -/
theorem Partitioned.finish (h : Partitioned key lo hi (key (a hi)) a b i hi)
    (hc : c = Function.update (Function.update b i (b hi)) hi (b i)) :
    Rearranges (Set.Icc lo hi) a c ∧ c i = a hi ∧ (∀ k ∈ Set.Ico lo i, key (c k) < key (a hi)) ∧
      ∀ k ∈ Set.Ioc i hi, key (a hi) ≤ key (c k) := by
  obtain ⟨hlo, hihi, -, hre, hbelow, habove⟩ := h
  have hpivot : b hi = a hi := hre.eq_of_notMem fun hmem => lt_irrefl hi hmem.2
  have hsub : Set.Ico lo hi ⊆ Set.Icc lo hi := fun k hk => ⟨hk.1, hk.2.le⟩
  have hi₁ : i ∈ Set.Icc lo hi := ⟨hlo, hihi⟩
  have hi₂ : hi ∈ Set.Icc lo hi := ⟨hlo.trans hihi, le_rfl⟩
  subst hc
  refine ⟨(hre.mono hsub).trans (.exchange hi₁ hi₂ b), ?_, ?_, ?_⟩
  · rcases eq_or_ne i hi with rfl | hne
    · rw [Function.update_self, hpivot]
    · rw [Function.update_of_ne hne, Function.update_self, hpivot]
  · rintro k ⟨hk, hki⟩
    rw [Function.update_of_ne (by omega : k ≠ hi), Function.update_of_ne hki.ne]
    exact hbelow k hk hki
  · rintro k ⟨hik, hk⟩
    rcases eq_or_ne k hi with rfl | hne
    · rw [Function.update_self]
      exact habove i le_rfl hik
    · rw [Function.update_of_ne hne, Function.update_of_ne hik.ne']
      exact habove k hik.le (by omega)

/-- Two sorted sides around a pivot. -/
theorem monotoneOn_of_pivot {f : ℤ → κ} (hleft : MonotoneOn f (Set.Ico lo i))
    (hright : MonotoneOn f (Set.Ioc i hi)) (hbelow : ∀ k ∈ Set.Ico lo i, f k ≤ f i)
    (habove : ∀ k ∈ Set.Ioc i hi, f i ≤ f k) : MonotoneOn f (Set.Icc lo hi) := by
  intro j hj k hk hjk
  rcases lt_trichotomy k i with hki | rfl | hik
  · exact hleft ⟨hj.1, hjk.trans_lt hki⟩ ⟨hk.1, hki⟩ hjk
  · rcases hjk.eq_or_lt with rfl | hlt
    · exact le_rfl
    · exact hbelow j ⟨hj.1, hlt⟩
  · rcases lt_trichotomy j i with hji | rfl | hij
    · exact (hbelow j ⟨hj.1, hji⟩).trans (habove k ⟨hik, hk.2⟩)
    · exact habove k ⟨hik, hk.2⟩
    · exact hright ⟨hij, hj.2⟩ ⟨hik, hk.2⟩ hjk

/-- The sides of a pivot are sorted, first the left one, then the right one. -/
theorem monotoneOn_of_sides (hab : Rearranges (Set.Icc lo (i - 1)) a b)
    (hbc : Rearranges (Set.Icc (i + 1) hi) b c) (hleft : MonotoneOn (key ∘ b) (Set.Icc lo (i - 1)))
    (hright : MonotoneOn (key ∘ c) (Set.Icc (i + 1) hi))
    (hbelow : ∀ k ∈ Set.Ico lo i, key (a k) ≤ key (a i))
    (habove : ∀ k ∈ Set.Ioc i hi, key (a i) ≤ key (a k)) : MonotoneOn (key ∘ c) (Set.Icc lo hi) := by
  have hIco : Set.Ico lo i = Set.Icc lo (i - 1) := by
    ext k
    exact and_congr_right fun _ => Int.le_sub_one_iff.symm
  have hIoc : Set.Ioc i hi = Set.Icc (i + 1) hi := Set.ext fun k => Iff.rfl
  rw [hIco] at hbelow
  rw [hIoc] at habove
  -- neither side reaches the pivot or the other side
  have hstayR : ∀ k ∈ Set.Icc (i + 1) hi, b k = a k := fun k hk =>
    hab.eq_of_notMem fun hmem => by have := hk.1; have := hmem.2; omega
  have hstayL : ∀ k ≤ i, c k = b k := fun k hk =>
    hbc.eq_of_notMem fun hmem => by have := hmem.1; omega
  have hpivot : c i = a i := by
    rw [hstayL i le_rfl]
    exact hab.eq_of_notMem fun hmem => by have := hmem.2; omega
  refine monotoneOn_of_pivot (i := i) ?_ ?_ ?_ ?_
  · rw [hIco]
    intro j hj k hk hjk
    rw [Function.comp_apply, Function.comp_apply, hstayL j (by have := hj.2; omega),
      hstayL k (by have := hk.2; omega)]
    exact hleft hj hk hjk
  · rwa [hIoc]
  · rw [hIco]
    intro k hk
    rw [Function.comp_apply, Function.comp_apply, hpivot, hstayL k (by have := hk.2; omega)]
    exact hab.forall_mem (P := fun v => key v ≤ key (a i)) hbelow k hk
  · rw [hIoc]
    intro k hk
    rw [Function.comp_apply, Function.comp_apply, hpivot]
    refine hbc.forall_mem (P := fun v => key (a i) ≤ key v) (fun k hk => ?_) k hk
    rw [hstayR k hk]
    exact habove k hk

end Partition

end Rearrange
