import Inmojomni.Bench
import Inmojomni.Effect.Fallible
import Inmojomni.Intervals
import Inmojomni.Quantiles
import Mathlib.Data.Fintype.Lattice
import Mathlib.Order.Lattice.Nat

/-!
# Reducing the runs of a benchmark

`reduce_runs` makes one row of the result tables of each workload: the median of its times and its
checksum. It raises if the checksums of a workload differ between the runs, or if its times spread
too far. The two hosts share the function but for the unit in its message.

The times are sorted in place, so the least is first, the greatest last and the median in the
middle (`reduceWorkload_eq`), and nothing depends on the order of the runs (`reduce_reordered`). The
spread is not looked at when the least time is zero. So what is let through is what should be,
except where a workload took no time in one run and some in another (`reducesWell_iff`).
-/

namespace Bench

def names : Vector String count :=
  #v["gpio_toggle", "xorshift", "div", "f32", "call", "crc32", "sort", "mat16", "fib"]

/-- The words of the mailbox: a time and a checksum for each workload of each run. -/
abbrev Flat := Vector Word (runs * count * 2)

def position (r : Fin runs) (i : Fin count) : ℕ := (r * count + i) * 2

theorem position_lt (r : Fin runs) (i : Fin count) : position r i + 1 < runs * count * 2 := by
  have hr := r.isLt
  have hi := i.isLt
  rw [position]
  simp only [runs, count] at hr hi ⊢
  omega

def time (flat : Flat) (r : Fin runs) (i : Fin count) : Word :=
  flat.get ⟨position r i, Nat.lt_of_succ_lt (position_lt r i)⟩

def checksum (flat : Flat) (r : Fin runs) (i : Fin count) : Word :=
  flat.get ⟨position r i + 1, position_lt r i⟩

def times (flat : Flat) (i : Fin count) : List Word :=
  (List.finRange runs).map fun r => time flat r i

def checksums (flat : Flat) (i : Fin count) : List Word :=
  (List.finRange runs).map fun r => checksum flat r i

/-- The rest of the loop for workload `i`, once its times are sorted. -/
def checkSpread (unit lang : String) (i : Fin count) (c0 : Word) (t : List Word) :
    Except String (Word × Word) :=
  let lo := t.getD 0 0#32
  let hi := t.getD (t.length - 1) 0#32
  if lo > 0#32 ∧ (hi - lo).setWidth 64 * 100#64 / lo.setWidth 64 ≥ 2#64 then
    .error (lang ++ "/" ++ names[i] ++ ": run spread exceeds 2% (" ++ toString lo.toNat ++ ".."
      ++ toString hi.toNat ++ " " ++ unit ++ ")")
  else .ok (t.getD (t.length / 2) 0#32, c0)

/-- One round of the loop over the workloads. -/
def reduceWorkload (unit lang : String) (flat : Flat) (i : Fin count) :
    Except String (Word × Word) :=
  let c := checksums flat i
  if ∃ r ∈ List.range' 1 (runs - 1), c.getD r 0#32 ≠ c.getD 0 0#32 then
    .error (lang ++ "/" ++ names[i] ++ ": checksum varies across runs")
  else checkSpread unit lang i (c.getD 0 0#32) (Intervals.swapSort BitVec.toNat (times flat i))

/-- Median time and checksum of each workload. -/
def reduce (unit lang : String) (flat : Flat) : Except String (List Word × List Word) := do
  let rows ← (List.finRange count).mapM (reduceWorkload unit lang flat)
  return (rows.map Prod.fst, rows.map Prod.snd)

/-- `tools/bench.mojo` -/
def Rp2040.reduceRuns : String → Flat → Except String (List Word × List Word) := reduce "µs"

/-- `tools/bench_rp2350.mojo` -/
def Rp2350.reduceRuns : String → Flat → Except String (List Word × List Word) := reduce "cycles"

/-! ### What it is for -/

instance : NeZero runs := ⟨Nat.succ_ne_zero 2⟩

/-- The checksums of a workload are the same in all runs. -/
def Agree (flat : Flat) (i : Fin count) : Prop := ∀ r r', checksum flat r i = checksum flat r' i

instance (flat : Flat) (i : Fin count) : Decidable (Agree flat i) :=
  inferInstanceAs (Decidable (∀ r r', checksum flat r i = checksum flat r' i))

/-- The shortest time of a workload. -/
def fastest (flat : Flat) (i : Fin count) : ℕ :=
  Finset.univ.inf' Finset.univ_nonempty fun r => (time flat r i).toNat

/-- The longest. -/
def slowest (flat : Flat) (i : Fin count) : ℕ :=
  Finset.univ.sup' Finset.univ_nonempty fun r => (time flat r i).toNat

/-- The spread of the times is below 2 %. -/
def Steady (flat : Flat) (i : Fin count) : Prop :=
  100 * (slowest flat i - fastest flat i) < 2 * fastest flat i ∨ slowest flat i = fastest flat i

/-- The same runs in another order. -/
def Reordered (flat flat' : Flat) : Prop := ∃ σ : Equiv.Perm (Fin runs), ∀ r i,
  time flat' r i = time flat (σ r) i ∧ checksum flat' r i = checksum flat (σ r) i

/-- The times of a workload, shortest first. -/
def sorted (flat : Flat) (i : Fin count) : List Word :=
  Intervals.swapSort BitVec.toNat (times flat i)

variable {flat flat' : Flat} {i : Fin count}

/-! ### The sorted times -/

theorem length_sorted (flat : Flat) (i : Fin count) : (sorted flat i).length = runs :=
  (Intervals.swapSort_perm _).length_eq.trans (by rw [times, List.length_map, List.length_finRange])

theorem mem_sorted {w : Word} : w ∈ sorted flat i ↔ ∃ r, time flat r i = w := by
  rw [sorted, (Intervals.swapSort_perm _).mem_iff, times, List.mem_map]
  simp

theorem exists_sorted_eq (flat : Flat) (i : Fin count) : ∃ a b c, sorted flat i = [a, b, c] ∧
    [a, b, c].Pairwise fun v w => v.toNat ≤ w.toNat := by
  obtain ⟨a, b, c, habc⟩ := List.length_eq_three.mp (length_sorted flat i)
  exact ⟨a, b, c, habc, habc ▸ Intervals.sorted_swapSort _⟩

/-- The least is first and the greatest last. -/
theorem sorted_ends (flat : Flat) (i : Fin count) :
    ((sorted flat i).getD 0 0#32).toNat = fastest flat i ∧
      ((sorted flat i).getD 2 0#32).toNat = slowest flat i := by
  obtain ⟨a, b, c, habc, hle⟩ := exists_sorted_eq flat i
  have hmem : ∀ r, time flat r i = a ∨ time flat r i = b ∨ time flat r i = c := fun r => by
    have hr : time flat r i ∈ sorted flat i := mem_sorted.mpr ⟨r, rfl⟩
    rw [habc] at hr
    simpa using hr
  obtain ⟨ra, ha⟩ : ∃ r, time flat r i = a := mem_sorted.mp (by rw [habc]; simp)
  obtain ⟨rc, hc⟩ : ∃ r, time flat r i = c := mem_sorted.mp (by rw [habc]; simp)
  have hab : a.toNat ≤ b.toNat := List.rel_of_pairwise_cons hle (by simp)
  have hbc : b.toNat ≤ c.toNat := List.rel_of_pairwise_cons hle.of_cons (by simp)
  rw [habc]
  constructor
  · refine le_antisymm (Finset.le_inf' _ _ fun r _ => ?_) ?_
    · change a.toNat ≤ _
      rcases hmem r with h | h | h <;> rw [h] <;> omega
    · exact (Finset.inf'_le _ (Finset.mem_univ ra)).trans_eq (congrArg BitVec.toNat ha)
  · refine le_antisymm ?_ (Finset.sup'_le _ _ fun r _ => ?_)
    · exact (congrArg BitVec.toNat hc).symm.trans_le
        (Finset.le_sup' (fun r => (time flat r i).toNat) (Finset.mem_univ rc))
    · change _ ≤ c.toNat
      rcases hmem r with h | h | h <;> rw [h] <;> omega

/-- The median is in the middle. -/
theorem sorted_middle : Quantiles.IsMedian ((times flat i).map BitVec.toNat)
    ((sorted flat i).getD 1 0#32).toNat := by
  have hperm : ((sorted flat i).map BitVec.toNat).Perm ((times flat i).map BitVec.toNat) :=
    (Intervals.swapSort_perm _).map _
  obtain ⟨a, b, c, habc, hle⟩ := exists_sorted_eq flat i
  rw [habc] at hperm ⊢
  have hsorted : ([a, b, c].map BitVec.toNat).Pairwise (· ≤ ·) := List.pairwise_map.mpr hle
  have hmiddle : Quantiles.IsMedian ([a, b, c].map BitVec.toNat) b.toNat :=
    Quantiles.isMedian_of_middle hsorted (by simp)
  exact hmiddle.of_perm hperm

/-- The percentage in 64 bits is that of the numbers. -/
theorem spread_iff {lo hi : Word} (hle : lo.toNat ≤ hi.toNat) :
    lo > 0#32 ∧ (hi - lo).setWidth 64 * 100#64 / lo.setWidth 64 ≥ 2#64 ↔
      0 < lo.toNat ∧ 2 * lo.toNat ≤ 100 * (hi.toNat - lo.toNat) := by
  refine and_congr_right fun hpos => ?_
  have hlo : 0 < lo.toNat := BitVec.lt_def.mp hpos
  have hhi := hi.isLt
  have hwide : lo.toNat < 2 ^ 64 := by omega
  have hdiff : hi.toNat - lo.toNat < 2 ^ 64 := by omega
  have hprod : (hi.toNat - lo.toNat) * 100 < 2 ^ 64 := by omega
  rw [ge_iff_le, BitVec.le_def, BitVec.toNat_udiv, BitVec.toNat_mul, BitVec.toNat_setWidth,
    BitVec.toNat_setWidth, BitVec.toNat_sub_of_le hle, Nat.mod_eq_of_lt hdiff,
    Nat.mod_eq_of_lt hwide, BitVec.toNat_ofNat, BitVec.toNat_ofNat]
  change 2 ≤ (hi.toNat - lo.toNat) * 100 % 2 ^ 64 / lo.toNat ↔ _
  rw [Nat.mod_eq_of_lt hprod, Nat.le_div_iff_mul_le hlo, Nat.mul_comm 100]

/-- The gate, in numbers. -/
theorem checkSpread_eq (unit lang : String) (c0 : Word) :
    checkSpread unit lang i c0 (sorted flat i) =
      if 0 < fastest flat i ∧ 2 * fastest flat i ≤ 100 * (slowest flat i - fastest flat i) then
        .error (lang ++ "/" ++ names[i] ++ ": run spread exceeds 2% (" ++ toString (fastest flat i)
          ++ ".." ++ toString (slowest flat i) ++ " " ++ unit ++ ")")
      else .ok ((sorted flat i).getD 1 0#32, c0) := by
  obtain ⟨hlo, hhi⟩ := sorted_ends flat i
  have hlen : (sorted flat i).length = 3 := length_sorted flat i
  have hle : fastest flat i ≤ slowest flat i :=
    (Finset.inf'_le _ (Finset.mem_univ 0)).trans
      (Finset.le_sup' (fun r => (time flat r i).toNat) (Finset.mem_univ 0))
  rw [← hlo, ← hhi] at hle ⊢
  simp only [checkSpread, hlen]
  exact if_congr (spread_iff hle) rfl rfl

theorem getD_checksums (r : Fin runs) : (checksums flat i).getD r 0#32 = checksum flat r i := by
  simp [checksums]

/-- The rounds of the inner loop compare each run with the first. -/
theorem varies_iff : (∃ r ∈ List.range' 1 (runs - 1),
    (checksums flat i).getD r 0#32 ≠ (checksums flat i).getD 0 0#32) ↔ ¬ Agree flat i := by
  have hzero : (checksums flat i).getD 0 0#32 = checksum flat 0 i := getD_checksums 0
  rw [hzero]
  constructor
  · rintro ⟨r, hr, hne⟩ hagree
    obtain ⟨-, hlt⟩ := List.mem_range'_1.mp hr
    exact hne ((getD_checksums ⟨r, hlt⟩).trans (hagree _ _))
  · intro hnot
    by_contra hall
    have hfirst : ∀ r, checksum flat r i = checksum flat 0 i := fun r => by
      by_contra hne
      have hpos : r.val ≠ 0 := fun h0 => hne (congrArg (checksum flat · i) (Fin.ext h0))
      refine hall ⟨r, List.mem_range'_1.mpr ⟨Nat.pos_of_ne_zero hpos, r.isLt⟩, ?_⟩
      rw [getD_checksums r]
      exact hne
    exact hnot fun r r' => (hfirst r).trans (hfirst r').symm

/-! ### What is let through -/

theorem reduceWorkload_eq (unit lang : String) : reduceWorkload unit lang flat i =
    if ¬ Agree flat i then
      .error (lang ++ "/" ++ names[i] ++ ": checksum varies across runs")
    else if 0 < fastest flat i ∧ 2 * fastest flat i ≤ 100 * (slowest flat i - fastest flat i) then
      .error (lang ++ "/" ++ names[i] ++ ": run spread exceeds 2% (" ++ toString (fastest flat i)
        ++ ".." ++ toString (slowest flat i) ++ " " ++ unit ++ ")")
    else .ok ((sorted flat i).getD 1 0#32, checksum flat 0 i) := by
  have hzero : (checksums flat i).getD 0 0#32 = checksum flat 0 i := getD_checksums 0
  rw [reduceWorkload, hzero]
  exact if_congr varies_iff rfl (checkSpread_eq unit lang _)

/-- The gates as they are. -/
def Passes (flat : Flat) (i : Fin count) : Prop :=
  Agree flat i ∧ (0 < fastest flat i → Steady flat i)

theorem reduceWorkload_eq_ok_iff {unit lang : String} {row : Word × Word} :
    reduceWorkload unit lang flat i = .ok row ↔
      Passes flat i ∧ row = ((sorted flat i).getD 1 0#32, checksum flat 0 i) := by
  have hsteady : ¬ (0 < fastest flat i ∧
      2 * fastest flat i ≤ 100 * (slowest flat i - fastest flat i)) ↔
        (0 < fastest flat i → Steady flat i) := by
    rw [Steady]
    omega
  rw [reduceWorkload_eq, Fallible.ite_error_eq_ok_iff, Fallible.ite_error_eq_ok_iff, not_not,
    hsteady, Passes, and_assoc, Except.ok.injEq]
  exact and_congr_right fun _ => and_congr_right fun _ => eq_comm

theorem reduce_eq_ok_iff {unit lang : String} {r : List Word × List Word} :
    reduce unit lang flat = .ok r ↔ (∀ i, Passes flat i) ∧
      r = ((List.finRange count).map fun i => (sorted flat i).getD 1 0#32,
        (List.finRange count).map fun i => checksum flat 0 i) := by
  have hrows : ∀ rows, (List.finRange count).mapM (reduceWorkload unit lang flat) = .ok rows ↔
      (∀ i ∈ List.finRange count, Passes flat i) ∧ rows = (List.finRange count).map fun i =>
        ((sorted flat i).getD 1 0#32, checksum flat 0 i) := fun rows =>
    Fallible.mapM_eq_ok_iff fun i row => reduceWorkload_eq_ok_iff
  rw [reduce, Fallible.bind_eq_ok_iff]
  constructor
  · rintro ⟨rows, hok, hret⟩
    obtain ⟨hpass, rfl⟩ := (hrows rows).mp hok
    refine ⟨fun i => hpass i (List.mem_finRange i), ?_⟩
    rw [← Except.ok.inj hret, List.map_map, List.map_map]
    rfl
  · rintro ⟨hpass, rfl⟩
    refine ⟨_, (hrows _).mpr ⟨fun i _ => hpass i, rfl⟩, ?_⟩
    rw [List.map_map, List.map_map]
    rfl

/-- What `reduce_runs` promises. -/
structure ReducesWell (reduceRuns : String → Flat → Except String (List Word × List Word))
    (lang : String) (flat : Flat) : Prop where
  gates : ∀ r, reduceRuns lang flat = .ok r → ∀ i, Agree flat i ∧ Steady flat i
  rows : ∀ r, reduceRuns lang flat = .ok r → r.1.length = count ∧ r.2.length = count ∧
    ∀ i : Fin count, ∃ m c, r.1[i]? = some m ∧ r.2[i]? = some c ∧
      Quantiles.IsMedian ((times flat i).map BitVec.toNat) m.toNat ∧ ∀ run, checksum flat run i = c
  order : ∀ flat', Reordered flat flat' → reduceRuns lang flat' = reduceRuns lang flat

/-- The order of the runs makes no difference, not even to a message. -/
theorem reduce_reordered (unit lang : String) (h : Reordered flat flat') :
    reduce unit lang flat' = reduce unit lang flat := by
  obtain ⟨σ, hσ⟩ := h
  have hworkload : ∀ i, reduceWorkload unit lang flat' i = reduceWorkload unit lang flat i := by
    intro i
    have hagree : Agree flat' i ↔ Agree flat i := by
      constructor
      · intro hall r r'
        rw [← σ.apply_symm_apply r, ← σ.apply_symm_apply r', ← (hσ _ i).2, ← (hσ _ i).2]
        exact hall _ _
      · intro hall r r'
        rw [(hσ r i).2, (hσ r' i).2]
        exact hall _ _
    have htimes : (times flat' i).Perm (times flat i) := by
      have hmap : times flat' i = ((List.finRange runs).map σ).map fun r => time flat r i := by
        rw [times, List.map_map]
        exact List.map_congr_left fun r _ => (hσ r i).1
      rw [hmap]
      exact (Equiv.Perm.map_finRange_perm σ).map _
    have hsorted : sorted flat' i = sorted flat i :=
      Intervals.swapSort_eq_of_perm (fun _ _ => BitVec.eq_of_toNat_eq) htimes
    have hlo := (sorted_ends flat i).1
    have hhi := (sorted_ends flat i).2
    rw [← hsorted] at hlo hhi
    rw [reduceWorkload_eq, reduceWorkload_eq, ← hlo, ← hhi, (sorted_ends flat' i).1,
      (sorted_ends flat' i).2, hsorted]
    by_cases hall : Agree flat i
    · have hsum : checksum flat' 0 i = checksum flat 0 i := (hσ 0 i).2.trans (hall _ _)
      rw [if_neg (not_not.mpr hall), if_neg (not_not.mpr (hagree.mpr hall)), hsum]
    · rw [if_pos hall, if_pos (mt hagree.mp hall)]
  rw [reduce, reduce, funext hworkload]

theorem reducesWell_iff (unit lang : String) (flat : Flat) : ReducesWell (reduce unit) lang flat ↔
    ((∀ i, Agree flat i ∧ (0 < fastest flat i → Steady flat i)) →
      ∀ i, fastest flat i = 0 → slowest flat i = 0) := by
  have hsteady : ∀ i, fastest flat i = 0 → (Steady flat i ↔ slowest flat i = 0) := fun i hzero => by
    rw [Steady, hzero]
    omega
  constructor
  · intro hwell hpass i hzero
    exact (hsteady i hzero).mp (hwell.gates _ (reduce_eq_ok_iff.mpr ⟨hpass, rfl⟩) i).2
  · intro hcond
    refine ⟨fun r hr i => ?_, fun r hr => ?_, fun flat' h => reduce_reordered unit lang h⟩
    · obtain ⟨hpass, -⟩ := reduce_eq_ok_iff.mp hr
      refine ⟨(hpass i).1, ?_⟩
      rcases Nat.eq_zero_or_pos (fastest flat i) with hzero | hpos
      · exact (hsteady i hzero).mpr (hcond hpass i hzero)
      · exact (hpass i).2 hpos
    · obtain ⟨hpass, rfl⟩ := reduce_eq_ok_iff.mp hr
      refine ⟨?_, ?_, fun i => ⟨_, _, ?_, ?_, sorted_middle, fun run => (hpass i).1 run 0⟩⟩
      · rw [List.length_map, List.length_finRange]
      · rw [List.length_map, List.length_finRange]
      · simp
      · simp

/-- **Reduction.** The gates let through what they should, the rows are medians and checksums and the
order of the runs makes no difference, unless everything else passes and a workload took no time in
one run and some in another. -/
theorem reduceRuns_iff (lang : String) (flat : Flat) :
    (ReducesWell Rp2040.reduceRuns lang flat ↔
      ((∀ i, Agree flat i ∧ (0 < fastest flat i → Steady flat i)) →
        ∀ i, fastest flat i = 0 → slowest flat i = 0)) ∧
    (ReducesWell Rp2350.reduceRuns lang flat ↔
      ((∀ i, Agree flat i ∧ (0 < fastest flat i → Steady flat i)) →
        ∀ i, fastest flat i = 0 → slowest flat i = 0)) :=
  ⟨reducesWell_iff "µs" lang flat, reducesWell_iff "cycles" lang flat⟩

/-- Zeros, but for the times of the first workload, which are 0, 1000 and 2000. -/
def zeroStart : Flat := ((Vector.replicate _ 0#32).set 18 1000#32).set 36 2000#32

/-- Times from 0 to 2000 are let through. -/
theorem reduceRuns_zeroStart : ¬ ReducesWell Rp2040.reduceRuns "mojo" zeroStart ∧
    Rp2040.reduceRuns "mojo" zeroStart = .ok
      ([1000#32, 0#32, 0#32, 0#32, 0#32, 0#32, 0#32, 0#32, 0#32], List.replicate 9 0#32) := by
  have hret : Rp2040.reduceRuns "mojo" zeroStart = .ok
      ([1000#32, 0#32, 0#32, 0#32, 0#32, 0#32, 0#32, 0#32, 0#32], List.replicate 9 0#32) := by
    rfl
  refine ⟨fun h => ?_, hret⟩
  have hsteady := (h.gates _ hret ⟨0, Nat.succ_pos 8⟩).2
  revert hsteady
  rw [Steady]
  decide

end Bench
