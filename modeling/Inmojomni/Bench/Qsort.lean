import Inmojomni.Effect.Trace
import Inmojomni.Mmio
import Inmojomni.Rearrange
import Mathlib.Order.Interval.Set.Basic

/-!
# The sort of the benchmark

`qsort` is `_qsort` of `bench/bench.mojo` and `bench/bench_rp2350.mojo`, and `qsort_u32` of the C
and Rust benchmarks: the last word of a range is the pivot, a loop collects the smaller ones in
front of it, and both sides are sorted in the same way. It works on a bare pointer, so what it loads
and stores is written down, and any offset there is would be served.

The recursion has a limited depth. As deep as the range is long is enough (`exists_qsort`).
-/

namespace Bench.Qsort

open Effect Mmio Rearrange

/-- The words at a pointer, by their offset. -/
abbrev Cells := ℤ → Word

/-- `overflow` is a call that the stack has no room for. -/
inductive Op
  | load (i : ℤ)
  | store (i : ℤ) (v : Word)
  | overflow

abbrev Op.Answer : Op → Type
  | .load _ => Word
  | .store _ _ => Unit
  | .overflow => Empty

abbrev Code := Prog Op.Answer

def unsafeLoad (i : ℤ) : Code Word := .call (Op.load i)

def unsafeStore (i : ℤ) (v : Word) : Code Unit := .call (Op.store i v)

/-- `t = a[i]; a[i] = a[j]; a[j] = t` -/
def exchange (i j : ℤ) : Code Unit := do
  let t ← unsafeLoad i
  unsafeStore i (← unsafeLoad j)
  unsafeStore j t

/-- `n` rounds of the loop, from `j` on. -/
def rounds (p : Word) : ℕ → ℤ → Int32 → Code Int32
  | 0, _, i => return i
  | n + 1, j, i => do
    if (← unsafeLoad j) < p then
      exchange i.toInt j
      rounds p n (j + 1) (i + 1)
    else
      rounds p n (j + 1) i

/-- The body of `_qsort` up to the two calls. -/
def split (lo hi : Int32) : Code Int32 := do
  let p ← unsafeLoad hi.toInt
  let i ← rounds p (hi.toInt - lo.toInt).toNat lo.toInt lo
  exchange i.toInt hi.toInt
  return i

/-- `_qsort`, with room for `depth` calls inside each other. -/
def qsort : ℕ → Int32 → Int32 → Code Unit
  | 0, _, _ => .op .overflow nofun
  | depth + 1, lo, hi =>
    if lo ≥ hi then return ()
    else do
      let i ← split lo hi
      qsort depth lo (i - 1)
      qsort depth (i + 1) hi

/-- An access to memory. -/
def access : (e : Op) → Cells → e.Answer → Cells → Prop
  | .load i, a, v, b => v = a i ∧ b = a
  | .store i v, a, _, b => b = Function.update a i v
  | .overflow, _, _, _ => False

/-- The offset that is accessed. -/
def Op.offset : Op → Option ℤ
  | .load i => some i
  | .store i _ => some i
  | .overflow => none

/-- All accesses are between `lo` and `hi`. -/
def Within (lo hi : ℤ) (tr : List (Answered Op.Answer)) : Prop :=
  ∀ e ∈ tr, ∀ k ∈ e.1.offset, lo ≤ k ∧ k ≤ hi

variable {lo hi : ℤ} {a b c : Cells} {tr tr' : List (Answered Op.Answer)}

theorem access_unique (e : Op) (a : Cells) (r : e.Answer) (b : Cells) (r' : e.Answer) (b' : Cells)
    (h : access e a r b) (h' : access e a r' b') : r' = r ∧ b' = b := by
  cases e with
  | load i =>
    obtain ⟨rfl, rfl⟩ := h
    exact h'
  | store i v =>
    obtain rfl : b = _ := h
    exact ⟨rfl, h'⟩
  | overflow => exact r.elim

theorem traced_load {i : ℤ} {v : Word} :
    Traced access (unsafeLoad i) a v b tr ↔ v = a i ∧ b = a ∧ tr = [⟨.load i, a i⟩] := by
  rw [unsafeLoad, traced_call]
  constructor
  · rintro ⟨⟨rfl, rfl⟩, rfl⟩
    exact ⟨rfl, rfl, rfl⟩
  · rintro ⟨rfl, rfl, rfl⟩
    exact ⟨⟨rfl, rfl⟩, rfl⟩

theorem traced_store {i : ℤ} {v : Word} {r : Unit} :
    Traced access (unsafeStore i v) a r b tr ↔
      b = Function.update a i v ∧ tr = [⟨.store i v, ()⟩] := by
  rw [unsafeStore, traced_call]
  rfl

theorem within_nil : Within lo hi [] := fun _ he => absurd he List.not_mem_nil

theorem Within.append (h : Within lo hi tr) (h' : Within lo hi tr') : Within lo hi (tr ++ tr') :=
  fun e he => (List.mem_append.mp he).elim (h e) (h' e)

theorem Within.mono {lo' hi' : ℤ} (h : Within lo hi tr) (hlo : lo' ≤ lo) (hhi : hi ≤ hi') :
    Within lo' hi' tr := by
  intro e he k hk
  obtain ⟨hlok, hkhi⟩ := h e he k hk
  exact ⟨hlo.trans hlok, hkhi.trans hhi⟩

theorem toInt_sub_one {i : Int32} (h : 0 ≤ i.toInt) : (i - 1).toInt = i.toInt - 1 := by
  have hlt := i.toInt_lt
  rw [Int32.toInt_sub]
  exact Int.bmod_eq_of_le (by change _ ≤ i.toInt - 1; omega) (by change i.toInt - 1 < _; omega)

theorem toInt_add_one {i : Int32} (h : i.toInt < 2 ^ 31 - 1) : (i + 1).toInt = i.toInt + 1 := by
  have hle := i.le_toInt
  rw [Int32.toInt_add]
  exact Int.bmod_eq_of_le (by change _ ≤ i.toInt + 1; omega) (by change i.toInt + 1 < _; omega)

/-! ### One partition -/

/-- Two cells change places. -/
theorem exists_exchange (a : Cells) {i j : ℤ} (hi₁ : i ∈ Set.Icc lo hi) (hj : j ∈ Set.Icc lo hi) :
    ∃ tr, Traced access (exchange i j) a ()
      (Function.update (Function.update a i (a j)) j (a i)) tr ∧ Within lo hi tr := by
  refine ⟨[⟨.load i, a i⟩, ⟨.load j, a j⟩, ⟨.store i (a j), ()⟩, ⟨.store j (a i), ()⟩], ?_, ?_⟩
  · refine traced_bind.mpr ⟨a i, a, _, _, traced_load.mpr ⟨rfl, rfl, rfl⟩, ?_, rfl⟩
    refine traced_bind.mpr ⟨a j, a, _, _, traced_load.mpr ⟨rfl, rfl, rfl⟩, ?_, rfl⟩
    refine traced_bind.mpr ⟨(), _, _, _, traced_store.mpr ⟨rfl, rfl⟩, ?_, rfl⟩
    exact traced_store.mpr ⟨rfl, rfl⟩
  · simp [Within, Op.offset, hi₁.1, hi₁.2, hj.1, hj.2]

theorem exists_rounds {p : Word} {n : ℕ} {j : ℤ} {i : Int32}
    (h : Partitioned BitVec.toNat lo hi p.toNat a b i.toInt j) (hn : j + n = hi)
    (hhi : hi < 2 ^ 31) : ∃ i' c tr, Traced access (rounds p n j i) b i' c tr ∧
      Partitioned BitVec.toNat lo hi p.toNat a c i'.toInt hi ∧ Within lo hi tr := by
  induction n generalizing j i b with
  | zero =>
    obtain rfl : j = hi := by omega
    exact ⟨i, b, [], traced_ret.mpr ⟨rfl, rfl, rfl⟩, h, within_nil⟩
  | succ n ih =>
    have hj : j < hi := by omega
    have hlo := h.lo_le
    have hij := h.le
    have hload : Traced access (unsafeLoad j) b (b j) b [⟨.load j, b j⟩] :=
      traced_load.mpr ⟨rfl, rfl, rfl⟩
    have hjmem : j ∈ Set.Icc lo hi := ⟨by omega, hj.le⟩
    have hfirst : Within lo hi [⟨.load j, b j⟩] := by
      simp [Within, Op.offset, hjmem.1, hjmem.2]
    by_cases hlt : b j < p
    · have hnext := h.exchange hj (BitVec.lt_def.mp hlt)
      rw [← toInt_add_one (by omega)] at hnext
      obtain ⟨i', c, tr, hrun, hpart, hwithin⟩ := ih hnext (by omega)
      have himem : i.toInt ∈ Set.Icc lo hi := ⟨hlo, by omega⟩
      obtain ⟨tr₀, hswap, hwithin₀⟩ := exists_exchange b himem hjmem
      refine ⟨i', c, _, traced_bind.mpr ⟨_, _, _, tr₀ ++ tr, hload, ?_, rfl⟩, hpart,
        hfirst.append (hwithin₀.append hwithin)⟩
      rw [if_pos hlt]
      exact traced_bind.mpr ⟨_, _, _, _, hswap, hrun, rfl⟩
    · obtain ⟨i', c, tr, hrun, hpart, hwithin⟩ :=
        ih (h.skip hj (mt BitVec.lt_def.mpr hlt)) (by omega)
      refine ⟨i', c, _, traced_bind.mpr ⟨_, _, _, tr, hload, ?_, rfl⟩, hpart,
        hfirst.append hwithin⟩
      rwa [if_neg hlt]

/-- The pivot ends up between the smaller words and the others. -/
theorem exists_split {lo hi : Int32} (h : lo.toInt < hi.toInt) : ∃ (i : Int32) (b : Cells) (tr : _),
    Traced access (split lo hi) a i b tr ∧ Within lo.toInt hi.toInt tr ∧
      i.toInt ∈ Set.Icc lo.toInt hi.toInt ∧ Rearranges (Set.Icc lo.toInt hi.toInt) a b ∧
      (∀ k ∈ Set.Ico lo.toInt i.toInt, (b k).toNat ≤ (b i.toInt).toNat) ∧
      ∀ k ∈ Set.Ioc i.toInt hi.toInt, (b i.toInt).toNat ≤ (b k).toNat := by
  have hstart :
      Partitioned BitVec.toNat lo.toInt hi.toInt (a hi.toInt).toNat a a lo.toInt lo.toInt :=
    .start h.le
  obtain ⟨i, b, tr₁, hrounds, hpart, hwithin₁⟩ := exists_rounds
    (n := (hi.toInt - lo.toInt).toNat) hstart (by omega) hi.toInt_lt
  have hi₁ : i.toInt ∈ Set.Icc lo.toInt hi.toInt := ⟨hpart.lo_le, hpart.le⟩
  have hi₂ : hi.toInt ∈ Set.Icc lo.toInt hi.toInt := ⟨h.le, le_rfl⟩
  obtain ⟨tr₂, hswap, hwithin₂⟩ := exists_exchange b hi₁ hi₂
  obtain ⟨hre, hpivot, hbelow, habove⟩ := hpart.finish rfl
  have hfirst : Within lo.toInt hi.toInt [⟨.load hi.toInt, a hi.toInt⟩] := by
    simp [Within, Op.offset, h.le]
  refine ⟨i, _, [⟨.load hi.toInt, a hi.toInt⟩] ++ (tr₁ ++ (tr₂ ++ [])), ?_,
    hfirst.append (hwithin₁.append (hwithin₂.append within_nil)), hi₁, hre, ?_, ?_⟩
  · refine traced_bind.mpr ⟨_, _, _, _, traced_load.mpr ⟨rfl, rfl, rfl⟩, ?_, rfl⟩
    refine traced_bind.mpr ⟨_, _, _, _, hrounds, ?_, rfl⟩
    refine traced_bind.mpr ⟨_, _, _, _, hswap, ?_, rfl⟩
    exact traced_ret.mpr ⟨rfl, rfl, rfl⟩
  · intro k hk
    rw [hpivot]
    exact (hbelow k hk).le
  · intro k hk
    rw [hpivot]
    exact habove k hk

/-! ### The whole sort -/

/-- What `_qsort` promises for the words from `lo` to `hi`. -/
structure Sorts (lo hi : ℤ) (a b : Cells) : Prop where
  sorted : MonotoneOn (BitVec.toNat ∘ b) (Set.Icc lo hi)
  rearranged : Rearranges (Set.Icc lo hi) a b
  elsewhere : ∀ k ∉ Set.Icc lo hi, b k = a k

theorem qsort_eq_ret {lo hi : Int32} (h : hi.toInt ≤ lo.toInt) (depth : ℕ) :
    qsort (depth + 1) lo hi = .ret () :=
  if_pos (Int32.le_iff_toInt_le.mpr h)

/-- A range of at most one word. -/
theorem exists_qsort_of_le {lo hi : Int32} (h : hi.toInt ≤ lo.toInt) (a : Cells) : ∃ b tr,
    (∀ depth > 0, Traced access (qsort depth lo hi) a () b tr) ∧
      Sorts lo.toInt hi.toInt a b ∧ Within lo.toInt hi.toInt tr := by
  refine ⟨a, [], fun depth hdepth => ?_, ⟨?_, .refl _ a, fun _ _ => rfl⟩, within_nil⟩
  · obtain ⟨depth, rfl⟩ := Nat.exists_eq_add_of_lt hdepth
    rw [Nat.zero_add, qsort_eq_ret h]
    exact traced_ret.mpr ⟨rfl, rfl, rfl⟩
  · exact (Set.subsingleton_Icc_of_ge h).monotoneOn _

/-- The induction is on the length of the range, which bounds the depth. -/
theorem exists_qsort (lo hi : Int32) {m : ℕ} (hlo : 0 ≤ lo.toInt) (hhi : hi.toInt < 2 ^ 31 - 1)
    (hm : hi.toInt - lo.toInt < m) (a : Cells) : ∃ b tr,
    (∀ depth > m, Traced access (qsort depth lo hi) a () b tr) ∧
      Sorts lo.toInt hi.toInt a b ∧ Within lo.toInt hi.toInt tr := by
  induction m generalizing lo hi a with
  | zero => exact exists_qsort_of_le (by omega) a
  | succ m ih =>
    by_cases hle : hi.toInt ≤ lo.toInt
    · obtain ⟨b, tr, hrun, hsorts⟩ := exists_qsort_of_le hle a
      exact ⟨b, tr, fun depth hdepth => hrun depth (Nat.zero_lt_of_lt hdepth), hsorts⟩
    · obtain ⟨i, b₁, tr₁, hsplit, hwithin₁, ⟨hloi, hihi⟩, hre₁, hbelow, habove⟩ :=
        exists_split (a := a) (not_le.mp hle)
      have hpred : (i - 1).toInt = i.toInt - 1 := toInt_sub_one (hlo.trans hloi)
      have hsucc : (i + 1).toInt = i.toInt + 1 := toInt_add_one (hihi.trans_lt hhi)
      obtain ⟨b₂, tr₂, hleft, hsorts₂, hwithin₂⟩ :=
        ih lo (i - 1) hlo (by omega) (by omega) b₁
      obtain ⟨b₃, tr₃, hright, hsorts₃, hwithin₃⟩ :=
        ih (i + 1) hi (by omega) hhi (by omega) b₂
      rw [hpred] at hsorts₂ hwithin₂
      rw [hsucc] at hsorts₃ hwithin₃
      have hre : Rearranges (Set.Icc lo.toInt hi.toInt) a b₃ := by
        refine (hre₁.trans (hsorts₂.rearranged.mono ?_)).trans (hsorts₃.rearranged.mono ?_)
        · exact Set.Icc_subset_Icc_right (by omega)
        · exact Set.Icc_subset_Icc_left (by omega)
      refine ⟨b₃, tr₁ ++ (tr₂ ++ tr₃), fun depth hdepth => ?_, ⟨?_, hre, fun k => hre.eq_of_notMem⟩,
        hwithin₁.append ((hwithin₂.mono le_rfl (by omega)).append (hwithin₃.mono (by omega) le_rfl))⟩
      · obtain ⟨depth, rfl⟩ : ∃ d, depth = d + 1 := ⟨depth - 1, by omega⟩
        have hbody : qsort (depth + 1) lo hi = (split lo hi).bind fun i =>
            (qsort depth lo (i - 1)).bind fun _ => qsort depth (i + 1) hi :=
          if_neg (mt Int32.le_iff_toInt_le.mp hle)
        rw [hbody]
        refine traced_bind.mpr ⟨i, b₁, _, _, hsplit, ?_, rfl⟩
        exact traced_bind.mpr ⟨(), b₂, _, _, hleft depth (by omega), hright depth (by omega), rfl⟩
      · exact monotoneOn_of_sides hsorts₂.rearranged hsorts₃.rearranged hsorts₂.sorted
          hsorts₃.sorted hbelow habove

/-- **The sort.** With room for as many calls as the range is long, `_qsort` ends in one way: the
range is sorted, nothing else has changed, and no access was outside of it. -/
theorem qsort_sorts (len : ℤ) (hlen : len ≤ 2 ^ 31 - 1) (a : Cells) (lo hi : Int32)
    (hlo : 0 ≤ lo.toInt) (hhi : hi.toInt < len) : ∃ b tr,
    (∀ depth > (hi.toInt + 1 - lo.toInt).toNat, ∀ r b' tr',
      Traced access (qsort depth lo hi) a r b' tr' ↔ b' = b ∧ tr' = tr) ∧
    Sorts lo.toInt hi.toInt a b ∧ Within lo.toInt hi.toInt tr := by
  obtain ⟨b, tr, hrun, hsorts⟩ :=
    exists_qsort lo hi (m := (hi.toInt + 1 - lo.toInt).toNat) hlo (hhi.trans_le hlen) (by omega) a
  refine ⟨b, tr, fun depth hdepth r b' tr' => ⟨fun h => ?_, ?_⟩, hsorts⟩
  · exact (Traced.unique access_unique (hrun depth hdepth) h).2
  · rintro ⟨rfl, rfl⟩
    exact hrun depth hdepth

/-- 5, 3, 4 and zeros from there on. -/
def jumbled : Cells
  | 0 => 5#32
  | 1 => 3#32
  | 2 => 4#32
  | _ => 0#32

theorem qsort_sorts_jumbled : ∃ b tr,
    (∀ depth > (3 : ℕ), ∀ r b' tr',
      Traced access (qsort depth 0 2) jumbled r b' tr' ↔ b' = b ∧ tr' = tr) ∧
    Sorts 0 2 jumbled b ∧ Within 0 2 tr :=
  qsort_sorts 3 (by decide) jumbled 0 2 (by decide) (by decide)

end Bench.Qsort
