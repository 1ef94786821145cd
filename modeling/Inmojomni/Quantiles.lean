import Mathlib.Algebra.Order.Group.Nat
import Mathlib.Data.Finset.Max
import Mathlib.Data.List.Perm.Basic
import Mathlib.Order.MinMax
import Mathlib.Tactic.GCongr
import Mathlib.Tactic.Ring

/-!
# Medians and quantiles of a list

The rank of a value is the number of elements that are at most that value. A quantile is the
smallest value whose rank is a given part of the list, so there is at most one (`IsQuantile.unique`).
It is one of the elements (`IsQuantile.mem`), grows with the part (`IsQuantile.le_of_le`), and is cut
off where the elements are (`IsQuantile.clamp`).

A median has at most half of the list on either side, as the middle of the sorted list has
(`isMedian_of_middle`).

The ranks are the running sums of a histogram (`rank_eq`).
-/

namespace Quantiles

variable {α : Type} [LinearOrder α] {l l' : List α} {v w b : α} {num den num' den' : ℕ}

/-- How many elements are at most `v`. -/
def rank (l : List α) (v : α) : ℕ := l.countP (· ≤ v)

/-- The smallest value that at least `num / den` of the elements are at most. -/
structure IsQuantile (num den : ℕ) (l : List α) (v : α) : Prop where
  reaches : num * l.length ≤ den * rank l v
  least : ∀ w, num * l.length ≤ den * rank l w → v ≤ w

/-- An element with at most half of the list below it and at most half above. -/
structure IsMedian (l : List α) (m : α) : Prop where
  mem : m ∈ l
  below : 2 * l.countP (· < m) ≤ l.length
  above : 2 * l.countP (m < ·) ≤ l.length

/-! ### Ranks -/

theorem rank_eq_length (h : ∀ a ∈ l, a ≤ v) : rank l v = l.length :=
  List.countP_eq_length.mpr fun a ha => decide_eq_true (h a ha)

/-- Below the cut the ranks stay, and from there on they are full. -/
theorem rank_map_min : rank (l.map (min b)) w = if w < b then rank l w else l.length := by
  split
  · next hlt =>
    rw [rank, List.countP_map]
    refine List.countP_congr fun a _ => ?_
    simp [hlt]
  · next hge =>
    refine (rank_eq_length fun a ha => ?_).trans (List.length_map _)
    obtain ⟨x, -, rfl⟩ := List.mem_map.mp ha
    exact (min_le_left _ _).trans (not_lt.mp hge)

/-- The running sum of a histogram. -/
theorem rank_eq : rank l v = l.countP (· < v) + l.count v := by
  induction l with
  | nil => rfl
  | cons a l ih =>
    simp only [rank, List.countP_cons, List.count_cons] at ih ⊢
    rw [ih]
    rcases lt_trichotomy a v with hlt | rfl | hgt
    · simp [hlt, hlt.le, hlt.ne]
      omega
    · simp
      omega
    · simp [hgt.not_ge, hgt.not_gt, hgt.ne']

/-! ### Quantiles -/

namespace IsQuantile

theorem unique (h : IsQuantile num den l v) (h' : IsQuantile num den l w) : v = w :=
  le_antisymm (h.least w h'.reaches) (h'.least v h.reaches)

theorem of_perm (h : IsQuantile num den l v) (hperm : l.Perm l') : IsQuantile num den l' v := by
  have hrank : ∀ w, rank l' w = rank l w := fun w => (hperm.countP_eq _).symm
  refine ⟨?_, fun w hw => ?_⟩
  · rw [hrank, ← hperm.length_eq]
    exact h.reaches
  · rw [hrank, ← hperm.length_eq] at hw
    exact h.least w hw

/-- A larger part has a larger quantile. -/
theorem le_of_le (h : IsQuantile num den l v) (h' : IsQuantile num' den' l w) (hden : 0 < den')
    (hpart : num * den' ≤ num' * den) : v ≤ w := by
  refine h.least w (Nat.le_of_mul_le_mul_left ?_ hden)
  calc den' * (num * l.length) = num * den' * l.length := by ring
    _ ≤ num' * den * l.length := by gcongr
    _ = den * (num' * l.length) := by ring
    _ ≤ den * (den' * rank l w) := Nat.mul_le_mul_left den h'.reaches
    _ = den' * (den * rank l w) := by ring

/-- A quantile is an element: between two elements the rank does not change. -/
theorem mem (h : IsQuantile num den l v) (hnum : 0 < num) (hl : l ≠ []) : v ∈ l := by
  have hpos : 0 < rank l v := by
    have hlen := Nat.mul_pos hnum (List.length_pos_of_ne_nil hl)
    exact Nat.pos_of_mul_pos_left (hlen.trans_le h.reaches)
  have hne : (l.toFinset.filter (· ≤ v)).Nonempty := by
    obtain ⟨a, ha, hle⟩ := List.countP_pos_iff.mp hpos
    exact ⟨a, Finset.mem_filter.mpr ⟨List.mem_toFinset.mpr ha, of_decide_eq_true hle⟩⟩
  obtain ⟨x, hx, hmax⟩ := Finset.exists_max_image _ id hne
  obtain ⟨hxl, hxv⟩ := Finset.mem_filter.mp hx
  -- the largest element that is at most `v` has the rank of `v`
  have hrank : rank l x = rank l v := by
    refine List.countP_congr fun a ha => ?_
    rw [decide_eq_true_eq, decide_eq_true_eq]
    exact ⟨fun hle => hle.trans hxv,
      fun hle => hmax a (Finset.mem_filter.mpr ⟨List.mem_toFinset.mpr ha, hle⟩)⟩
  have hvx : v ≤ x := h.least x (hrank ▸ h.reaches)
  exact le_antisymm hvx hxv ▸ List.mem_toFinset.mp hxl

/-- Cutting off the elements cuts off the quantile. -/
theorem clamp (h : IsQuantile num den l v) (hpart : num ≤ den) :
    IsQuantile num den (l.map (min b)) (min b v) := by
  refine ⟨?_, fun w hw => ?_⟩
  · rw [rank_map_min, List.length_map]
    split
    · next hlt =>
      have hv : min b v = v := min_eq_right (le_of_not_ge fun hle => hlt.ne (min_eq_left hle))
      rw [hv]
      exact h.reaches
    · exact Nat.mul_le_mul_right _ hpart
  · rw [rank_map_min, List.length_map] at hw
    split at hw
    · exact (min_le_right _ _).trans (h.least w hw)
    · next hge => exact (min_le_left _ _).trans (not_lt.mp hge)

end IsQuantile

/-! ### Medians -/

theorem IsMedian.of_perm {m : α} (h : IsMedian l m) (hperm : l.Perm l') : IsMedian l' m := by
  refine ⟨hperm.mem_iff.mp h.mem, ?_, ?_⟩
  · rw [← hperm.countP_eq, ← hperm.length_eq]
    exact h.below
  · rw [← hperm.countP_eq, ← hperm.length_eq]
    exact h.above

/-- The middle of a sorted list. -/
theorem isMedian_of_middle {m : α} (hsorted : l.Pairwise (· ≤ ·)) (hm : l[l.length / 2]? = some m) :
    IsMedian l m := by
  obtain ⟨hl, hget⟩ := List.getElem?_eq_some_iff.mp hm
  have hsplit : l = l.take (l.length / 2) ++ m :: l.drop (l.length / 2 + 1) := by
    rw [← hget, ← List.drop_eq_getElem_cons hl, List.take_append_drop]
  have htake : (l.take (l.length / 2)).length = l.length / 2 :=
    List.length_take_of_le (Nat.div_le_self _ _)
  have hdrop : (l.drop (l.length / 2 + 1)).length = l.length - (l.length / 2 + 1) := List.length_drop
  generalize l.take (l.length / 2) = low, l.drop (l.length / 2 + 1) = high at hsplit htake hdrop
  rw [hsplit] at hsorted
  obtain ⟨-, hhigh, hlow⟩ := List.pairwise_append.mp hsorted
  have habove : ∀ a ∈ high, m ≤ a := (List.pairwise_cons.mp hhigh).1
  have hbelow : ∀ a ∈ low, a ≤ m := fun a ha => hlow a ha m List.mem_cons_self
  refine ⟨?_, ?_, ?_⟩
  · rw [hsplit]
    exact List.mem_append_right _ List.mem_cons_self
  · -- only elements on the left are smaller
    have hzero : (m :: high).countP (· < m) = 0 := by
      refine List.countP_eq_zero.mpr fun a ha => ?_
      rw [decide_eq_true_eq, not_lt]
      rcases List.mem_cons.mp ha with rfl | ha
      · exact le_rfl
      · exact habove a ha
    have hcount : l.countP (· < m) ≤ low.length := by
      rw [hsplit, List.countP_append, hzero, Nat.add_zero]
      exact List.countP_le_length
    omega
  · have hzero : low.countP (m < ·) = 0 := by
      refine List.countP_eq_zero.mpr fun a ha => ?_
      rw [decide_eq_true_eq, not_lt]
      exact hbelow a ha
    have hcount : l.countP (m < ·) ≤ high.length := by
      rw [hsplit, List.countP_append, hzero, Nat.zero_add, List.countP_cons_of_neg (by simp)]
      exact List.countP_le_length
    omega

end Quantiles
