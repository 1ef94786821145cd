import Mathlib.Data.List.Infix
import Mathlib.Data.List.Basic

/-!
# Finding in a sequence

`find pat s` is the first position at which `pat` occurs in `s`, as the string libraries have
it, over any alphabet. The lemmas here say how a search goes through a sequence that is put
together from pieces: it passes over a piece in which no occurrence can start, which is the
case as soon as the first letter of the pattern is not in it (`find_append`). A pattern with a
delimiter at the end can only match up to the next delimiter.

`linewise c f` applies `f` to each piece between two separators `c`. It is the map that takes
separators to separators, and it keeps their number as long as `f` produces none.
-/

namespace Text

variable {α : Type} [DecidableEq α]

/-- The first position at which `pat` occurs. -/
def find (pat : List α) : List α → Option ℕ
  | [] => if pat <+: [] then some 0 else none
  | a :: s => if pat <+: a :: s then some 0 else (find pat s).map (· + 1)

/-- The first position from `start` on at which `pat` occurs. -/
def findFrom (pat s : List α) (start : ℕ) : Option ℕ :=
  (find pat (s.drop start)).map (· + start)

variable {pat s : List α}

theorem find_of_isPrefix (h : pat <+: s) : find pat s = some 0 := by
  cases s <;> exact if_pos h

theorem find_cons_of_not_isPrefix {a : α} (h : ¬ pat <+: a :: s) :
    find pat (a :: s) = (find pat s).map (· + 1) :=
  if_neg h

/-- What is found occurs there. -/
theorem prefix_drop_of_find {i : ℕ} (h : find pat s = some i) : pat <+: s.drop i := by
  induction s generalizing i with
  | nil =>
    obtain ⟨hpre, -⟩ := Option.ite_none_right_eq_some.mp h
    rwa [List.drop_nil]
  | cons a s ih =>
    by_cases hpre : pat <+: a :: s
    · rw [find_of_isPrefix hpre] at h
      obtain rfl := Option.some.inj h
      exact hpre
    · rw [find_cons_of_not_isPrefix hpre] at h
      obtain ⟨j, hj, rfl⟩ := Option.map_eq_some_iff.mp h
      exact ih hj

theorem add_length_le_of_find {i : ℕ} (h : find pat s = some i) (hne : pat ≠ []) :
    i + pat.length ≤ s.length := by
  have hle := (prefix_drop_of_find h).length_le
  rw [List.length_drop] at hle
  have hpos := List.length_pos_of_ne_nil hne
  omega

/-- Nothing is found exactly where the pattern does not occur. -/
theorem find_eq_none_iff : find pat s = none ↔ ¬ pat <:+: s := by
  induction s with
  | nil =>
    rw [find, List.infix_nil, ← List.prefix_nil]
    by_cases h : pat <+: [] <;> simp [h]
  | cons a s ih =>
    rw [List.infix_cons_iff, not_or, ← ih]
    by_cases h : pat <+: a :: s
    · simp [find_of_isPrefix h, h]
    · simp [find_cons_of_not_isPrefix h, h]

/-- The occurrence that is found is the first one. -/
theorem not_isPrefix_drop_of_find {i j : ℕ} (h : find pat s = some i) (hj : j < i) :
    ¬ pat <+: s.drop j := by
  induction s generalizing i j with
  | nil =>
    obtain ⟨-, hi⟩ := Option.ite_none_right_eq_some.mp h
    obtain rfl := Option.some.inj hi
    exact absurd hj (Nat.not_lt_zero j)
  | cons a s ih =>
    by_cases hpre : pat <+: a :: s
    · rw [find_of_isPrefix hpre] at h
      obtain rfl := Option.some.inj h
      exact absurd hj (Nat.not_lt_zero j)
    · rw [find_cons_of_not_isPrefix hpre] at h
      obtain ⟨i, hi, rfl⟩ := Option.map_eq_some_iff.mp h
      cases j with
      | zero => exact hpre
      | succ j => exact ih hi (Nat.lt_of_succ_lt_succ hj)

theorem find_eq_some_iff {i : ℕ} : find pat s = some i ↔
    (pat <+: s.drop i ∧ i ≤ s.length) ∧ ∀ j < i, ¬ pat <+: s.drop j := by
  constructor
  · intro h
    refine ⟨⟨prefix_drop_of_find h, ?_⟩, fun j => not_isPrefix_drop_of_find h⟩
    rcases eq_or_ne pat [] with rfl | hne
    · rw [find_of_isPrefix List.nil_prefix] at h
      obtain rfl := Option.some.inj h
      exact Nat.zero_le _
    · exact (Nat.le_add_right _ _).trans (add_length_le_of_find h hne)
  · rintro ⟨⟨hpre, -⟩, hfirst⟩
    cases hfind : find pat s with
    | none =>
      exact absurd (hpre.isInfix.trans (List.drop_suffix i s).isInfix) (find_eq_none_iff.mp hfind)
    | some k =>
      rcases lt_trichotomy k i with hlt | rfl | hgt
      · exact absurd (prefix_drop_of_find hfind) (hfirst k hlt)
      · rfl
      · exact absurd hpre (not_isPrefix_drop_of_find hfind hgt)

/-- What comes after an occurrence makes no difference. -/
theorem find_append_of_find {t : List α} {i : ℕ} (h : find pat s = some i) (hne : pat ≠ []) :
    find pat (s ++ t) = some i := by
  have hlen := add_length_le_of_find h hne
  refine find_eq_some_iff.mpr ⟨⟨?_, ?_⟩, fun j hj hpre => ?_⟩
  · rw [List.drop_append_of_le_length (by omega)]
    exact (prefix_drop_of_find h).trans (List.prefix_append _ _)
  · rw [List.length_append]
    omega
  · -- an earlier one would be in the first piece as well
    rw [List.drop_append_of_le_length (by omega)] at hpre
    refine not_isPrefix_drop_of_find h hj ?_
    exact List.prefix_of_prefix_length_le hpre (List.prefix_append _ _)
      (by rw [List.length_drop]; omega)

/-- An occurrence is found as soon as all of it is there. -/
theorem find_of_find_append {t : List α} {i : ℕ} (h : find pat (s ++ t) = some i) (hne : pat ≠ []) :
    find pat s = if i + pat.length ≤ s.length then some i else none := by
  cases hfind : find pat s with
  | some j =>
    obtain rfl : j = i := Option.some.inj ((find_append_of_find hfind hne).symm.trans h)
    rw [if_pos (add_length_le_of_find hfind hne)]
  | none =>
    rw [if_neg]
    intro hle
    have hpre := prefix_drop_of_find h
    rw [List.drop_append_of_le_length (by omega)] at hpre
    have hin : pat <+: s.drop i := List.prefix_of_prefix_length_le hpre (List.prefix_append _ _)
      (by rw [List.length_drop]; omega)
    exact find_eq_none_iff.mp hfind (hin.isInfix.trans (List.drop_suffix i s).isInfix)

/-- The search passes over a piece without the first letter of the pattern. -/
theorem find_append {c : α} {p : List α} (h : c ∉ p) :
    find (c :: pat) (p ++ s) = (find (c :: pat) s).map (· + p.length) := by
  induction p with
  | nil => simp
  | cons a p ih =>
    rw [List.mem_cons, not_or] at h
    have hnot : ¬ c :: pat <+: a :: (p ++ s) := fun hpre => h.1 (List.cons_prefix_cons.mp hpre).1
    rw [List.cons_append, find_cons_of_not_isPrefix hnot, ih h.2, Option.map_map]
    rfl

/-- The next occurrence of a letter. -/
theorem find_singleton {c : α} {p : List α} (h : c ∉ p) :
    find [c] (p ++ c :: s) = some p.length := by
  rw [find_append h, find_of_isPrefix (List.cons_prefix_cons.mpr ⟨rfl, List.nil_prefix⟩)]
  simp

/-! ### From a position on -/

section From

variable {start i : ℕ}

theorem prefix_drop_of_findFrom (h : findFrom pat s start = some i) : pat <+: s.drop i := by
  obtain ⟨k, hk, rfl⟩ := Option.map_eq_some_iff.mp h
  have hpre := prefix_drop_of_find hk
  rwa [List.drop_drop, Nat.add_comm] at hpre

theorem le_of_findFrom (h : findFrom pat s start = some i) : start ≤ i := by
  obtain ⟨k, -, rfl⟩ := Option.map_eq_some_iff.mp h
  exact Nat.le_add_left _ _

theorem lt_length_of_findFrom (h : findFrom pat s start = some i) (hne : pat ≠ []) :
    i < s.length := by
  have hle := (prefix_drop_of_findFrom h).length_le
  have hpos := List.length_pos_of_ne_nil hne
  rw [List.length_drop] at hle
  omega

theorem not_isPrefix_of_findFrom_eq_none (h : findFrom pat s start = none) {j : ℕ}
    (hj : start ≤ j) : ¬ pat <+: s.drop j := by
  intro hpre
  obtain ⟨k, rfl⟩ := Nat.exists_eq_add_of_le hj
  rw [← List.drop_drop] at hpre
  refine find_eq_none_iff.mp (Option.map_eq_none_iff.mp h) ?_
  exact hpre.isInfix.trans (List.drop_suffix _ _).isInfix

end From

omit [DecidableEq α] in
/-- The last position at which `pat` occurs. -/
structure IsLast (pat s : List α) (i : ℕ) : Prop where
  occurs : pat <+: s.drop i
  last : ∀ j > i, ¬ pat <+: s.drop j

omit [DecidableEq α] in
/-- Whatever comes before it, an occurrence is the last if none starts behind its first letter. -/
theorem isLast_append {c : α} {p t : List α} (s : List α) (h : ¬ c :: p <:+: p ++ t) :
    IsLast (c :: p) (s ++ c :: p ++ t) s.length := by
  constructor
  · rw [List.append_assoc, List.drop_left]
    exact List.prefix_append _ _
  · intro j hj hpre
    obtain ⟨k, rfl⟩ := Nat.exists_eq_add_of_lt hj
    rw [List.append_assoc, Nat.add_assoc, ← List.drop_drop, List.drop_left, List.cons_append,
      List.drop_succ_cons] at hpre
    exact h (hpre.isInfix.trans (List.drop_suffix _ _).isInfix)

/-! ### Up to a delimiter -/

section Delimiter

variable {c : α} {x y r : List α}

omit [DecidableEq α] in
/-- Two pieces that end at their first delimiter are the same. -/
theorem append_singleton_isPrefix_iff (hx : c ∉ x) (hy : c ∉ y) :
    x ++ [c] <+: y ++ c :: r ↔ x = y := by
  induction x generalizing y with
  | nil =>
    cases y with
    | nil => simp
    | cons b y =>
      rw [List.mem_cons, not_or] at hy
      simp [hy.1]
  | cons a x ih =>
    rw [List.mem_cons, not_or] at hx
    cases y with
    | nil => simp [Ne.symm hx.1]
    | cons b y =>
      rw [List.mem_cons, not_or] at hy
      simp [ih hx.2 hy.2]

omit [DecidableEq α] in
theorem not_append_singleton_isPrefix (hy : c ∉ y) : ¬ x ++ [c] <+: y := fun h =>
  hy (h.subset (List.mem_append_right _ (List.mem_singleton_self c)))

omit [DecidableEq α] in
/-- What has no delimiter in it can only begin before the first one. -/
theorem isPrefix_append_cons_iff (hx : c ∉ x) : x <+: y ++ c :: r ↔ x <+: y := by
  refine ⟨fun h => ?_, fun h => h.trans (List.prefix_append _ _)⟩
  induction x generalizing y with
  | nil => exact List.nil_prefix
  | cons a x ih =>
    rw [List.mem_cons, not_or] at hx
    cases y with
    | nil => exact absurd (List.cons_prefix_cons.mp h).1.symm hx.1
    | cons b y =>
      rw [List.cons_append, List.cons_prefix_cons] at h
      exact List.cons_prefix_cons.mpr ⟨h.1, ih hx.2 h.2⟩

end Delimiter

/-! ### Piece by piece -/

section Linewise

variable {c : α} {f : List α → List α} {a b : List α}

/-- Apply `f` to each piece between separators. -/
def linewise (c : α) (f : List α → List α) (s : List α) : List α :=
  [c].intercalate ((s.splitOn c).map f)

omit [DecidableEq α] in
theorem intercalate_append {xs ys : List (List α)} (hx : xs ≠ []) (hy : ys ≠ []) :
    [c].intercalate (xs ++ ys) = [c].intercalate xs ++ c :: [c].intercalate ys := by
  induction xs with
  | nil => exact absurd rfl hx
  | cons x xs ih =>
    rcases eq_or_ne xs [] with rfl | hne
    · rw [List.singleton_append, List.intercalate_cons_of_ne_nil hy, List.intercalate_singleton]
      simp
    · rw [List.cons_append, List.intercalate_cons_of_ne_nil (by simp [hne]), ih hne,
        List.intercalate_cons_of_ne_nil hne]
      simp

theorem linewise_append_cons :
    linewise c f (a ++ c :: b) = linewise c f a ++ c :: linewise c f b := by
  have hne : ∀ t : List α, (t.splitOn c).map f ≠ [] := fun t h =>
    List.splitOn_ne_nil c t (List.map_eq_nil_iff.mp h)
  rw [linewise, List.splitOn_append_cons_self, List.map_append, intercalate_append (hne a) (hne b)]
  rfl

/-- A piece has no separator in it. -/
theorem not_mem_of_mem_splitOn {l : List α} (h : l ∈ s.splitOn c) : c ∉ l := by
  induction s generalizing l with
  | nil =>
    rw [List.splitOn_nil, List.mem_singleton] at h
    subst h
    exact List.not_mem_nil
  | cons d s ih =>
    rw [List.splitOn_cons_eq_if_modifyHead] at h
    split at h
    case isTrue =>
      rcases List.mem_cons.mp h with rfl | h
      · exact List.not_mem_nil
      · exact ih h
    case isFalse hd =>
      -- the letter goes to the first piece
      obtain ⟨r, rs, hr⟩ := List.exists_cons_of_ne_nil (List.splitOn_ne_nil c s)
      rw [hr, List.modifyHead_cons] at h
      rcases List.mem_cons.mp h with rfl | h
      · have hc : c ∉ r := ih (hr ▸ List.mem_cons_self)
        have hne : c ≠ d := fun heq => hd (beq_iff_eq.mpr heq.symm)
        simp [hc, hne]
      · exact ih (hr ▸ List.mem_cons_of_mem _ h)

theorem length_splitOn : (s.splitOn c).length = s.count c + 1 := by
  induction s with
  | nil => rfl
  | cons d s ih =>
    rw [List.splitOn_cons_eq_if_modifyHead, List.count_cons, apply_ite List.length,
      List.length_cons, List.length_modifyHead, ih]
    split <;> rfl

/-- The pieces of the result are the results of the pieces. -/
theorem splitOn_linewise (hf : ∀ l, c ∉ l → c ∉ f l) :
    (linewise c f s).splitOn c = (s.splitOn c).map f := by
  refine List.splitOn_intercalate c (fun l hl => ?_) fun h =>
    List.splitOn_ne_nil c s (List.map_eq_nil_iff.mp h)
  obtain ⟨l', hl', rfl⟩ := List.mem_map.mp hl
  exact hf l' (not_mem_of_mem_splitOn hl')

theorem count_linewise (hf : ∀ l, c ∉ l → c ∉ f l) : (linewise c f s).count c = s.count c := by
  have hlen : ((linewise c f s).splitOn c).length = (s.splitOn c).length := by
    rw [splitOn_linewise hf, List.length_map]
  rw [length_splitOn, length_splitOn] at hlen
  exact Nat.succ_injective hlen

/-- If `f` makes no piece empty and none of an empty one, a separator at the end stays. -/
theorem getLast?_linewise (hf : ∀ l, c ∉ l → c ∉ f l) (hnil : ∀ l, f l = [] ↔ l = []) :
    (linewise c f s).getLast? = some c ↔ s.getLast? = some c := by
  rw [List.getLast?_eq_some_iff, List.getLast?_eq_some_iff]
  constructor
  · rintro ⟨t, ht⟩
    -- the last piece of the result is empty, so the last piece of the input was
    have hpieces := splitOn_linewise (s := s) hf
    rw [ht, List.splitOn_append_cons_self, List.splitOn_nil] at hpieces
    obtain ⟨init, last, hsplit, hinit, hlast⟩ := List.map_eq_append_iff.mp hpieces.symm
    obtain ⟨l, rfl, hl⟩ := List.map_eq_singleton_iff.mp hlast
    have hne : init ≠ [] := by
      rintro rfl
      exact List.splitOn_ne_nil c t hinit.symm
    refine ⟨[c].intercalate init, (List.intercalate_splitOn c).symm.trans ?_⟩
    rw [hsplit, (hnil l).mp hl,
      intercalate_append hne (List.cons_ne_nil _ _), List.intercalate_singleton]
  · rintro ⟨t, rfl⟩
    refine ⟨linewise c f t, ?_⟩
    have hempty : linewise c f [] = [] := by
      rw [linewise, List.splitOn_nil, List.map_singleton, List.intercalate_singleton, hnil]
    rw [linewise_append_cons, hempty]

end Linewise

end Text
