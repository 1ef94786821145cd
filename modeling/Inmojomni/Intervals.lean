import Mathlib.Algebra.Ring.Nat
import Mathlib.Order.Basic
import Mathlib.Data.List.Induction
import Mathlib.Data.List.Perm.Basic
import Mathlib.Data.List.Pairwise
import Mathlib.Order.Interval.Finset.Nat

/-!
# Sorting by neighbour swaps

`swapSort key l` is insertion sort as an array program does it: each element in turn is
exchanged with its left neighbour as long as that one has the larger key. The result is a
permutation (`swapSort_perm`) in the order of the keys (`sorted_swapSort`).

After the sort it is enough to compare neighbours: intervals that do not meet the next one
do not meet any other (`pairwise_of_isChain`).

What disjoint sets of addresses cover has the sum of their sizes, and what reaches down to an
origin without gaps is the interval of that size (`eq_Ico_of_gapless`).
-/

namespace Intervals

variable {α κ : Type} [LinearOrder κ] (key : α → κ)

/-- The inner loop: the element at `j` moves left past the elements with larger keys. -/
def sift (l : List α) : ℕ → List α
  | 0 => l
  | j + 1 =>
    match l[j]?, l[j + 1]? with
    | some a, some b => if key a > key b then sift ((l.set j b).set (j + 1) a) j else l
    | _, _ => l

/-- Insertion sort by neighbour swaps. -/
def swapSort (l : List α) : List α := (List.range' 1 (l.length - 1)).foldl (sift key) l

variable {key}

/-! ### The sort -/

/-- An element that moves left stops between those that are not larger and those that are. -/
theorem exists_sift_eq (sorted : List α) (x : α) (rest : List α) :
    ∃ as bs, as ++ bs = sorted ∧ sift key (sorted ++ x :: rest) sorted.length = as ++ x :: bs ++ rest ∧
      (∀ b ∈ bs, key x < key b) ∧ ∀ a ∈ as.getLast?, key a ≤ key x := by
  induction sorted using List.reverseRecOn generalizing rest with
  | nil => exact ⟨[], [], rfl, rfl, by simp, by simp⟩
  | append_singleton init a ih =>
    have ha : (init ++ [a] ++ x :: rest)[init.length]? = some a := by simp
    have hx : (init ++ [a] ++ x :: rest)[init.length + 1]? = some x := by simp
    rw [List.length_append, List.length_singleton, sift, ha, hx]
    dsimp only
    split
    · next hlt =>
      -- the two change places, and the element goes on in what is left of them
      have hswap : ((init ++ [a] ++ x :: rest).set init.length x).set (init.length + 1) a =
          init ++ x :: (a :: rest) := by simp
      obtain ⟨as, bs, rfl, heq, hbs, has⟩ := ih (a :: rest)
      refine ⟨as, bs ++ [a], by simp, ?_, ?_, has⟩
      · rw [hswap, heq]
        simp
      · intro b hb
        rcases List.mem_append.mp hb with hb | hb
        · exact hbs b hb
        · rwa [List.mem_singleton.mp hb]
    · next hle =>
      refine ⟨init ++ [a], [], by simp, by simp, by simp, ?_⟩
      intro b hb
      rw [List.getLast?_concat, Option.mem_some_iff] at hb
      rw [← hb]
      exact not_lt.mp hle

/-- The inner loop puts an element into the sorted part before it. -/
theorem exists_sift_eq_sorted {sorted : List α} (h : sorted.Pairwise (key · ≤ key ·)) (x : α)
    (rest : List α) : ∃ sorted', sorted'.Perm (sorted ++ [x]) ∧ sorted'.Pairwise (key · ≤ key ·) ∧
      sift key (sorted ++ x :: rest) sorted.length = sorted' ++ rest := by
  obtain ⟨as, bs, rfl, heq, hbs, has⟩ := @exists_sift_eq α κ _ key sorted x rest
  obtain ⟨hsa, hsb, hab⟩ := List.pairwise_append.mp h
  refine ⟨as ++ x :: bs, ?_, ?_, heq⟩
  · rw [List.append_assoc]
    exact List.Perm.append_left as (List.perm_append_singleton x bs).symm
  · have hax : ∀ a ∈ as, key a ≤ key x := by
      intro a ha
      -- the last one on the left has the largest key there
      induction as using List.reverseRecOn with
      | nil => exact absurd ha List.not_mem_nil
      | append_singleton init c _ =>
        have hc : key c ≤ key x := has c (by simp)
        rcases List.mem_append.mp ha with ha | ha
        · exact ((List.pairwise_append.mp hsa).2.2 a ha c (List.mem_singleton_self c)).trans hc
        · rwa [List.mem_singleton.mp ha]
    rw [List.pairwise_append, List.pairwise_cons]
    refine ⟨hsa, ⟨fun b hb => (hbs b hb).le, hsb⟩, fun a ha b hb => ?_⟩
    rcases List.mem_cons.mp hb with rfl | hb
    · exact hax a ha
    · exact hab a ha b hb

/-- After `n` rounds the first `n + 1` elements are sorted. -/
theorem exists_rounds_eq (l : List α) {n : ℕ} (hn : n < l.length) :
    ∃ sorted, sorted.Perm (l.take (n + 1)) ∧ sorted.Pairwise (key · ≤ key ·) ∧
      (List.range' 1 n).foldl (sift key) l = sorted ++ l.drop (n + 1) := by
  induction n with
  | zero =>
    refine ⟨l.take 1, List.Perm.refl _, ?_, (List.take_append_drop 1 l).symm⟩
    obtain ⟨a, l, rfl⟩ := List.exists_cons_of_length_pos hn
    exact List.pairwise_singleton _ a
  | succ n ih =>
    obtain ⟨sorted, hperm, hsorted, heq⟩ := ih (Nat.lt_of_succ_lt hn)
    have hlen : sorted.length = 1 + n := by
      rw [hperm.length_eq, List.length_take]
      omega
    obtain ⟨sorted', hperm', hsorted', heq'⟩ :=
      exists_sift_eq_sorted hsorted l[n + 1] (l.drop (n + 1 + 1))
    refine ⟨sorted', ?_, hsorted', ?_⟩
    · rw [List.take_succ_eq_append_getElem hn]
      exact hperm'.trans (hperm.append_right _)
    · rw [List.range'_concat, List.foldl_append, heq, List.drop_eq_getElem_cons hn,
        List.foldl_cons, List.foldl_nil, Nat.one_mul, ← hlen, heq']

theorem swapSort_spec (l : List α) :
    (swapSort key l).Perm l ∧ (swapSort key l).Pairwise (key · ≤ key ·) := by
  rcases Nat.eq_zero_or_pos l.length with hzero | hpos
  · obtain rfl := List.length_eq_zero_iff.mp hzero
    exact ⟨List.Perm.refl _, List.Pairwise.nil⟩
  · obtain ⟨sorted, hperm, hsorted, heq⟩ :=
      @exists_rounds_eq α κ _ key l _ (Nat.sub_one_lt_of_lt hpos)
    rw [Nat.sub_add_cancel hpos, List.take_length] at hperm
    rw [Nat.sub_add_cancel hpos, List.drop_length, List.append_nil] at heq
    rw [swapSort, heq]
    exact ⟨hperm, hsorted⟩

/-- Sorting loses nothing and invents nothing. -/
theorem swapSort_perm (l : List α) : (swapSort key l).Perm l := (swapSort_spec l).1

theorem sorted_swapSort (l : List α) : (swapSort key l).Pairwise (key · ≤ key ·) :=
  (swapSort_spec l).2

/-- Lists with the same elements are sorted to the same list, when the keys tell them apart. -/
theorem swapSort_eq_of_perm (hkey : Function.Injective key) {l l' : List α} (h : l.Perm l') :
    swapSort key l = swapSort key l' := by
  have hperm : (swapSort key l).Perm (swapSort key l') :=
    (swapSort_perm l).trans (h.trans (swapSort_perm l').symm)
  refine hperm.eq_of_pairwise (fun a b _ _ hab hba => hkey ?_) (sorted_swapSort l)
    (sorted_swapSort l')
  exact le_antisymm hab hba

/-! ### Neighbours -/

/-- Of intervals in the order of their starts, none empty, neighbours that do not overlap are
enough for all to be apart. -/
theorem pairwise_of_isChain {lo hi : α → κ} {l : List α} (hne : ∀ a ∈ l, lo a < hi a)
    (h : l.IsChain fun a b => hi a ≤ lo b) : l.Pairwise fun a b => hi a ≤ lo b := by
  induction l with
  | nil => exact List.Pairwise.nil
  | cons a l ih =>
    have htail := ih (fun b hb => hne b (List.mem_cons_of_mem a hb)) h.of_cons
    refine List.pairwise_cons.mpr ⟨fun b hb => ?_, htail⟩
    cases l with
    | nil => exact absurd hb List.not_mem_nil
    | cons c l =>
      have hac := (List.isChain_cons_cons.mp h).1
      rcases List.mem_cons.mp hb with rfl | hb
      · exact hac
      · -- `a` ends before its neighbour starts, and that one ends before `b` does
        calc hi a ≤ lo c := hac
          _ ≤ hi c := (hne c (by simp)).le
          _ ≤ lo b := (List.pairwise_cons.mp htail).1 b hb

/-! ### Pairs -/

/-- `a` and `b` are entries of the list at different places. -/
def PairIn (l : List α) (a b : α) : Prop :=
  ∃ i j : ℕ, i ≠ j ∧ l[i]? = some a ∧ l[j]? = some b

theorem PairIn.symm {l : List α} {a b : α} (h : PairIn l a b) : PairIn l b a := by
  obtain ⟨i, j, hne, hi, hj⟩ := h
  exact ⟨j, i, hne.symm, hj, hi⟩

theorem PairIn.mem {l : List α} {a b : α} (h : PairIn l a b) : a ∈ l ∧ b ∈ l := by
  obtain ⟨i, j, -, hi, hj⟩ := h
  exact ⟨List.mem_of_getElem? hi, List.mem_of_getElem? hj⟩

/-- Where a symmetric relation does not hold throughout, some pair breaks it. -/
theorem not_pairwise_iff {R : α → α → Prop} (hR : ∀ {a b}, R a b → R b a) {l : List α} :
    ¬ l.Pairwise R ↔ ∃ a b, PairIn l a b ∧ ¬ R a b := by
  constructor
  · intro h
    by_contra hnone
    refine h (List.pairwise_iff_getElem.mpr fun i j hi hj hij => ?_)
    by_contra hbreak
    exact hnone ⟨l[i], l[j], ⟨i, j, hij.ne, List.getElem?_eq_getElem hi,
      List.getElem?_eq_getElem hj⟩, hbreak⟩
  · rintro ⟨a, b, ⟨i, j, hne, hi, hj⟩, hbreak⟩ h
    obtain ⟨hlti, rfl⟩ := List.getElem?_eq_some_iff.mp hi
    obtain ⟨hltj, rfl⟩ := List.getElem?_eq_some_iff.mp hj
    rcases Nat.lt_or_gt_of_ne hne with hij | hij
    · exact hbreak (List.pairwise_iff_getElem.mp h i j hlti hltj hij)
    · exact hbreak (hR (List.pairwise_iff_getElem.mp h j i hltj hlti hij))

/-! ### What is covered -/

/-- The addresses of a list of sets. -/
def covered (l : List (Finset ℕ)) : Finset ℕ := l.foldr (· ∪ ·) ∅

theorem mem_covered {l : List (Finset ℕ)} {x : ℕ} : x ∈ covered l ↔ ∃ s ∈ l, x ∈ s := by
  induction l with
  | nil => simp [covered]
  | cons s l ih =>
    rw [covered] at ih
    rw [covered, List.foldr_cons, Finset.mem_union, ih, List.exists_mem_cons_iff]

/-- Disjoint sets cover as much as they have elements. -/
theorem card_covered {l : List (Finset ℕ)} (h : l.Pairwise Disjoint) :
    (covered l).card = (l.map Finset.card).sum := by
  induction l with
  | nil => rfl
  | cons s l ih =>
    obtain ⟨hs, hl⟩ := List.pairwise_cons.mp h
    have hdisjoint : Disjoint s (covered l) := Finset.disjoint_left.mpr fun x hxs hx => by
      obtain ⟨t, ht, hxt⟩ := mem_covered.mp hx
      exact Finset.disjoint_left.mp (hs t ht) hxs hxt
    rw [List.map_cons, List.sum_cons, ← ih hl]
    exact Finset.card_union_of_disjoint hdisjoint

/-- A set without gaps above `lo` is an interval that starts there. -/
theorem eq_Ico_of_gapless {c : Finset ℕ} {lo : ℕ} (hlo : ∀ a ∈ c, lo ≤ a)
    (h : ∀ a ∈ c, ∀ b, lo ≤ b → b ≤ a → b ∈ c) : c = Finset.Ico lo (lo + c.card) := by
  refine Finset.eq_of_subset_of_card_le (fun a ha => ?_) ?_
  · -- everything from `lo` to `a` counts
    have hsub : Finset.Ico lo (a + 1) ⊆ c := fun b hb =>
      h a ha b (Finset.mem_Ico.mp hb).1 (Nat.le_of_lt_succ (Finset.mem_Ico.mp hb).2)
    have hcard := Finset.card_le_card hsub
    rw [Nat.card_Ico] at hcard
    have := hlo a ha
    rw [Finset.mem_Ico]
    omega
  · rw [Nat.card_Ico, Nat.add_sub_cancel_left]

end Intervals
