import Inmojomni.Effect.Fallible
import Inmojomni.IrqLatency
import Inmojomni.Quantiles

/-!
# The percentiles of a latency run

The bins of the histogram count the samples cut off at its last bin (`bins_eq`). On the way through
the bins the accumulator is the number of samples in the bins before, and each threshold is reached
for the first time at the percentile it stands for (`Before`, one round in `Before.pass`). So the
percentiles of a `Result` are those of the cut-off samples, which are the percentiles of the samples,
cut off (`percentiles_clamped`).
-/

namespace IrqLatency

open Effect Quantiles

/-! ### The histogram -/

/-- The bins of the samples. -/
def bins (ss : List Word) : List ℕ := ss.map fun s => (bin s).val

theorem bins_cons (s : Word) (ss : List Word) : bins (s :: ss) = (bin s).val :: bins ss := rfl

theorem bin_val (s : Word) : (bin s).val = min (hist - 1) s.toNat := by
  rw [bin]
  split
  · next h =>
    have hlt : s.toNat < 4096 := BitVec.lt_def.mp h
    exact (min_eq_right (Nat.le_sub_one_of_lt hlt)).symm
  · next h =>
    have hge : 4096 ≤ s.toNat := Nat.not_lt.mp fun hlt => h (BitVec.lt_def.mpr hlt)
    exact (min_eq_left ((Nat.sub_le _ _).trans hge)).symm

/-- Larger samples are cut off at the last bin. -/
theorem bins_eq (ss : List Word) : bins ss = (ss.map BitVec.toNat).map (min (hist - 1)) := by
  rw [bins, List.map_map]
  exact List.map_congr_left fun s _ => bin_val s

theorem hist_foldl (ss : List Word) (t : Tally) {b : ℕ} (hb : b < hist) :
    (ss.foldl Tally.add t).hist[b] = t.hist[b] + BitVec.ofNat 32 ((bins ss).count b) := by
  induction ss generalizing t with
  | nil => simp [bins]
  | cons s ss ih =>
    rw [List.foldl_cons, ih]
    rw [bins_cons, List.count_cons]
    simp only [Tally.add, Fin.getElem_fin, Vector.getElem_set, beq_iff_eq]
    split
    · next heq =>
      simp only [heq]
      rw [Nat.add_comm _ 1, BitVec.ofNat_add, ← BitVec.add_assoc]
      rfl
    · rfl

/-- A bin holds the number of its samples. -/
theorem toNat_hist (samples : Vector Word n) {b : ℕ} (hb : b < hist) :
    (samples.toList.foldl Tally.add Tally.init).hist[b].toNat = (bins samples.toList).count b := by
  have hlt : (bins samples.toList).count b < 2 ^ 32 := by
    refine List.count_le_length.trans_lt ?_
    rw [bins, List.length_map, Vector.length_toList]
    decide
  have hinit : Tally.init.hist[b] = 0#32 := by simp [Tally.init]
  rw [hist_foldl, hinit, BitVec.zero_add, BitVec.toNat_ofNat, Nat.mod_eq_of_lt hlt]

/-! ### The thresholds -/

/-- Whether the threshold has been reached in the bins before `b`, and where. -/
def Found (num den : ℕ) (l : List ℕ) (b : ℕ) (got : Bool) (p : Word) : Prop :=
  if got then IsQuantile num den l p.toNat else ∀ w < b, ¬ num * l.length ≤ den * rank l w

/-- What holds before bin `b`. -/
structure Before (l : List ℕ) (b : ℕ) (c : Cursor) : Prop where
  acc : c.acc = l.countP (· < b)
  p50 : Found 50 100 l b c.got50 c.r.p50
  p99 : Found 99 100 l b c.got99 c.r.p99
  p999 : Found 999 1000 l b false 0

section Round

variable {num den b : ℕ} {l : List ℕ} {got : Bool} {p : Word}

/-- A threshold that is reached in bin `b` for the first time is reached at its quantile. -/
theorem isQuantile_of_first (hfirst : ∀ w < b, ¬ num * l.length ≤ den * rank l w)
    (hnow : num * l.length ≤ den * rank l b) : IsQuantile num den l b :=
  ⟨hnow, fun w hw => not_lt.mp fun hlt => hfirst w hlt hw⟩

theorem toNat_ofNat_bin (b : Fin hist) : (BitVec.ofNat 32 b).toNat = b :=
  (BitVec.toNat_ofNat _ _).trans (Nat.mod_eq_of_lt (b.isLt.trans (by decide)))

/-- One threshold in one round. -/
theorem Found.round {b : Fin hist} {acc : ℕ} (h : Found num den l b got p)
    (hacc : acc * den ≥ num * l.length ↔ num * l.length ≤ den * rank l b) :
    Found num den l (b + 1) (got || (!got && decide (acc * den ≥ num * l.length)))
      (if !got && decide (acc * den ≥ num * l.length) then BitVec.ofNat 32 b else p) := by
  cases got with
  | true => exact h
  | false =>
    simp only [Bool.false_or, Bool.not_false, Bool.true_and, hacc, decide_eq_true_eq]
    by_cases hnow : num * l.length ≤ den * rank l b
    · rw [Found, if_pos (decide_eq_true hnow), if_pos hnow, toNat_ofNat_bin]
      exact isQuantile_of_first h hnow
    · rw [Found, decide_eq_false hnow]
      exact Nat.forall_lt_succ_right.mpr ⟨h, hnow⟩

/-- What reaches the last threshold reaches the others. -/
theorem Found.quantile_of_last {num b : ℕ} (h : Found num 100 l (b + 1) got p) (hnum : num ≤ 99)
    (hlast : 999 * l.length ≤ 1000 * rank l b) : IsQuantile num 100 l p.toNat := by
  cases got with
  | true => exact h
  | false =>
    refine absurd ?_ (h b (Nat.lt_succ_self _))
    have hpart : num * l.length ≤ 99 * l.length := Nat.mul_le_mul_right _ hnum
    omega

/-- One round, up to the last threshold. -/
theorem Before.pass {h : Vector Word hist} {b : Fin hist} {c : Cursor} (hlen : l.length = n)
    (hh : h[b].toNat = l.count b.val) (hc : Before l b c) :
    (c.pass h b).acc = rank l b ∧
      Found 50 100 l (b + 1) (c.pass h b).got50 (c.pass h b).r.p50 ∧
      Found 99 100 l (b + 1) (c.pass h b).got99 (c.pass h b).r.p99 := by
  have hacc : c.acc + h[b].toNat = rank l b := by rw [hc.acc, hh, rank_eq]
  have hround : ∀ num den, (c.acc + h[b].toNat) * den ≥ num * l.length ↔
      num * l.length ≤ den * rank l b := fun num den => by rw [hacc, Nat.mul_comm]
  have h50 := hc.p50.round (hround 50 100)
  have h99 := hc.p99.round (hround 99 100)
  rw [hlen, Nat.mul_comm _ n] at h50 h99
  exact ⟨hacc, h50, h99⟩

theorem scan_cons (h : Vector Word hist) (b : Fin hist) (bs : List (Fin hist)) (c : Cursor) :
    scan h (b :: bs) c = if (c.pass h b).acc * 1000 ≥ n * 999 then
      { (c.pass h b).r with p999 := BitVec.ofNat 32 b } else scan h bs (c.pass h b) :=
  rfl

/-- The loop is at bin `b`. -/
theorem map_val_cons {a : Fin hist} {bs : List (Fin hist)}
    (h : (a :: bs).map Fin.val = List.range' b (hist - b)) : b < hist ∧ a.val = b ∧
      bs.map Fin.val = List.range' (b + 1) (hist - (b + 1)) := by
  rcases Nat.eq_zero_or_pos (hist - b) with hzero | hpos
  · rw [hzero, List.range'_zero, List.map_cons] at h
    exact absurd h (List.cons_ne_nil _ _)
  · have hsplit : hist - b = hist - (b + 1) + 1 := by omega
    rw [hsplit, List.range'_succ, List.map_cons, List.cons.injEq] at h
    exact ⟨Nat.lt_of_sub_pos hpos, h⟩

/-- **The loop over the bins** finds the three quantiles. -/
theorem scan_quantiles {h : Vector Word hist} {c : Cursor} (hlen : l.length = n)
    (hlast : ∀ a ∈ l, a ≤ hist - 1) (hh : ∀ b : Fin hist, h[b].toNat = l.count b.val)
    (hc : Before l b c) {bs : List (Fin hist)} (hbs : bs.map Fin.val = List.range' b (hist - b))
    (hb : b ≤ hist) :
    IsQuantile 50 100 l (scan h bs c).p50.toNat ∧ IsQuantile 99 100 l (scan h bs c).p99.toNat ∧
      IsQuantile 999 1000 l (scan h bs c).p999.toNat := by
  induction bs generalizing b c with
  | nil =>
    -- all bins have been passed, and the last threshold has not been reached
    have hend : hist - b = 0 := by simpa using (congrArg List.length hbs).symm
    have hpos : 0 < hist := by decide
    have hfull : rank l (hist - 1) = l.length := rank_eq_length hlast
    refine absurd ?_ (hc.p999 (hist - 1) (by omega))
    rw [hfull]
    exact Nat.mul_le_mul_right _ (by decide)
  | cons a bs ih =>
    obtain ⟨hlt, rfl, hbs⟩ := map_val_cons hbs
    obtain ⟨hacc, h50, h99⟩ := hc.pass hlen (hh a)
    rw [scan_cons]
    split
    · next hnow =>
      rw [hacc, ← hlen, Nat.mul_comm, Nat.mul_comm _ 999] at hnow
      refine ⟨h50.quantile_of_last (by decide) hnow, h99.quantile_of_last le_rfl hnow, ?_⟩
      change IsQuantile 999 1000 l (BitVec.ofNat 32 a).toNat
      rw [toNat_ofNat_bin]
      exact isQuantile_of_first hc.p999 hnow
    · next hnot =>
      rw [hacc, ← hlen, Nat.mul_comm, Nat.mul_comm _ 999] at hnot
      refine ih ⟨hacc.trans ?_, h50, h99, Nat.forall_lt_succ_right.mpr ⟨hc.p999, hnot⟩⟩ hbs hlt
      exact List.countP_congr fun x _ => by
        simp only [decide_eq_true_eq, Nat.lt_succ_iff]

end Round

/-! ### The result -/

/-- The percentiles of `l`, in their order. -/
structure Result.Reports (r : Result) (l : List ℕ) : Prop where
  p50 : IsQuantile 50 100 l r.p50.toNat
  p99 : IsQuantile 99 100 l r.p99.toNat
  p999 : IsQuantile 999 1000 l r.p999.toNat
  lower : ∀ lo, (∀ s ∈ l, lo ≤ s) → lo ≤ r.p50.toNat
  middle : r.p50.toNat ≤ r.p99.toNat ∧ r.p99.toNat ≤ r.p999.toNat
  upper : ∀ hi, (∀ s ∈ l, s ≤ hi) → r.p999.toNat ≤ hi

/-- The samples in the target's memory. -/
def samplesIn (m : Word → Word) : List Word :=
  (List.range n).map fun i => m (samplesAddr + BitVec.ofNat 32 (4 * i))

theorem reports_of_quantiles {r : Result} {l : List ℕ} (hl : l ≠ [])
    (h50 : IsQuantile 50 100 l r.p50.toNat) (h99 : IsQuantile 99 100 l r.p99.toNat)
    (h999 : IsQuantile 999 1000 l r.p999.toNat) : r.Reports l where
  p50 := h50
  p99 := h99
  p999 := h999
  lower lo hlo := hlo _ (h50.mem (by decide) hl)
  middle := ⟨h50.le_of_le h99 (by decide) (by decide), h99.le_of_le h999 (by decide) (by decide)⟩
  upper hi hhi := hhi _ (h999.mem (by decide) hl)

theorem reduce_reports {v : Variant} {head : Head} {r r' : Result} {samples : Vector Word n}
    (h : reduce v head r samples = .ok r') : r'.Reports (bins samples.toList) := by
  have hlen : (bins samples.toList).length = n := by rw [bins, List.length_map, Vector.length_toList]
  have hlast : ∀ a ∈ bins samples.toList, a ≤ hist - 1 := fun a ha => by
    obtain ⟨s, -, rfl⟩ := List.mem_map.mp ha
    exact Nat.le_sub_one_of_lt (bin s).isLt
  obtain ⟨-, hscan⟩ := Fallible.ite_error_eq_ok_iff.mp h
  have hbefore : Before (bins samples.toList) 0 ⟨0, false, false, r⟩ := by
    refine ⟨?_, fun w hw => absurd hw (Nat.not_lt_zero w), fun w hw => absurd hw (Nat.not_lt_zero w),
      fun w hw => absurd hw (Nat.not_lt_zero w)⟩
    exact (List.countP_eq_zero.mpr fun a _ => by simp).symm
  have hbs : (List.finRange hist).map Fin.val = List.range' 0 (hist - 0) := by
    rw [List.map_coe_finRange_eq_range, List.range_eq_range']
    rfl
  obtain ⟨h50, h99, h999⟩ :=
    scan_quantiles hlen hlast (fun b => toNat_hist samples b.isLt) hbefore hbs (Nat.zero_le _)
  obtain rfl := Except.ok.inj hscan
  exact reports_of_quantiles (List.ne_nil_of_length_pos (by rw [hlen]; decide)) h50 h99 h999

/-- The samples of a result are those that are in memory at its end. -/
theorem runTarget_reports [Pio.ShiftModel] {divZero : Except String (BitVec 64)} {v : Variant}
    {m m' : Word → Word} {r : Result} (h : Returns access (runTarget divZero v) m r m') :
    r.Reports (bins (samplesIn m')) := by
  obtain ⟨_, m₁, -, h₁⟩ := returns_bind.mp h
  obtain ⟨_, m₂, -, h₂⟩ := returns_bind.mp h₁
  obtain ⟨head, m₃, -, h₃⟩ := returns_bind.mp h₂
  obtain ⟨r₀, m₄, -, h₄⟩ := returns_bind.mp h₃
  obtain ⟨ws, m₅, hread, h₅⟩ := returns_bind.mp h₄
  obtain ⟨hreduce, rfl⟩ := returns_except.mp h₅
  have hws : ws.toList = samplesIn m' := by
    have hat : ∀ k (hk : k < n), ws[k] = m' (samplesAddr + BitVec.ofNat 32 (4 * k)) :=
      returns_attempt.mp hread
    refine List.ext_getElem (by simp [samplesIn]) fun i hi hi' => ?_
    rw [Vector.getElem_toList, hat]
    simp [samplesIn]
  rw [← hws]
  exact reduce_reports hreduce

/-- **Percentiles.** Those of a result are those of the samples, cut off at the last bin. -/
theorem percentiles_clamped [Pio.ShiftModel] {divZero : Except String (BitVec 64)} {v : Variant}
    {m m' : Word → Word} {r : Result} (h : Returns access (runTarget divZero v) m r m') :
    let samples := (samplesIn m').map BitVec.toNat
    r.Reports (samples.map (min (hist - 1))) ∧
      (∀ q, IsQuantile 50 100 samples q → r.p50.toNat = min (hist - 1) q) ∧
      (∀ q, IsQuantile 99 100 samples q → r.p99.toNat = min (hist - 1) q) ∧
      ∀ q, IsQuantile 999 1000 samples q → r.p999.toNat = min (hist - 1) q := by
  intro samples
  have hreports : r.Reports (samples.map (min (hist - 1))) := by
    rw [← bins_eq]
    exact runTarget_reports h
  exact ⟨hreports, fun q hq => hreports.p50.unique (hq.clamp (by decide)),
    fun q hq => hreports.p99.unique (hq.clamp (by decide)),
    fun q hq => hreports.p999.unique (hq.clamp (by decide))⟩

/-! ### A run with large counts -/

/-- What a firmware reports that has measured 5000 every time. -/
def slowHead : Head :=
  #v[magic, 2, 10000, 3, 1, 125000, 5000, 30000, 0, 0, 0, 0,
    5000, 5000, 50000000, 5000, 5000, 50000000, 5000, 5000, 50000000, 0, 0, 0,
    7, 0x200F, 0x208F, 0xA02B, 0x00C5, 0x0043, 0x4020, 0x8020]

/-- The mailbox and, elsewhere, samples. -/
def slowMemory (a : Word) : Word := slowHead[(a - mb).toNat / 4]?.getD 5000

def slowVariant : Variant := ⟨"Mojo, ISR in flash", 1, "build/irq_latency_mojo.elf"⟩

theorem slowMemory_head : ∀ k (hk : k < 0x20),
    slowHead[k] = slowMemory (mb + BitVec.ofNat 32 (4 * k)) := by
  decide

theorem slowMemory_sample {i : ℕ} (hi : i < n) :
    slowMemory (samplesAddr + BitVec.ofNat 32 (4 * i)) = 5000#32 := by
  have hlt : i < 10000 := hi
  have hfar : 0x20 ≤ (samplesAddr + BitVec.ofNat 32 (4 * i) - mb).toNat / 4 := by
    rw [samplesAddr, mb]
    bv_omega
  rw [slowMemory, Vector.getElem?_eq_none hfar]
  rfl

theorem mem_samplesIn_slowMemory {w : Word} (h : w ∈ samplesIn slowMemory) : w = 5000#32 := by
  obtain ⟨i, hi, rfl⟩ := List.mem_map.mp h
  exact slowMemory_sample (List.mem_range.mp hi)

theorem want_eq [Pio.ShiftModel] :
    want.len = 7 ∧ ∀ k < 7, want.code[k]? = Pio.Latency.words[k]? := by
  obtain ⟨a, ha, -⟩ := Pio.Latency.exists_referenceProgram
  rw [want, ha]
  exact Pio.Latency.referenceProgram_code ha

theorem differing_slowHead [Pio.ShiftModel] : differing slowHead = none := by
  obtain ⟨hlen, hcode⟩ := want_eq
  refine List.find?_eq_none.mpr fun i hi => ?_
  rw [hlen, List.mem_range] at hi
  have hwords : ∀ k < 7, slowHead.at (0x19 + k) = (Pio.Latency.words[k]?.getD 0).setWidth 32 := by
    decide
  simp [hcode i hi, hwords i hi]

theorem checkSpread_slowHead : checkSpread (.error "") slowVariant slowHead = .ok () := by
  rfl

theorem exists_readHead [Pio.ShiftModel] :
    ∃ r, readHead (.error "") slowVariant slowHead = .ok r := by
  rw [readHead, if_neg (by decide), if_neg (by decide), if_neg (by decide), if_neg (by decide),
    if_neg (by decide), if_neg (by rw [want_eq.1]; decide), differing_slowHead]
  dsimp only
  rw [checkSpread_slowHead]
  exact ⟨_, rfl⟩

theorem tally_replicate (k : ℕ) :
    let t := (List.replicate (k + 1) 5000#32).foldl Tally.add Tally.init
    t.smn = 5000#32 ∧ t.smx = 5000#32 ∧ t.ssum = BitVec.ofNat 32 ((k + 1) * 5000) := by
  induction k with
  | zero => decide
  | succ k ih =>
    obtain ⟨hmin, hmax, hsum⟩ := ih
    rw [List.replicate_succ', List.foldl_append, List.foldl_cons, List.foldl_nil]
    refine ⟨?_, ?_, ?_⟩
    · rw [Tally.add, hmin]
      rfl
    · rw [Tally.add, hmax]
      rfl
    · rw [Tally.add, hsum, Nat.add_mul (k + 1), BitVec.ofNat_add]

/-- The firmware that measures 5000 every time passes all the checks. -/
theorem exists_returns [Pio.ShiftModel] :
    ∃ r, Returns access (runTarget (.error "") slowVariant) slowMemory r slowMemory := by
  obtain ⟨r, hr⟩ := exists_readHead
  have hsamples : ∀ k (hk : k < n), (Vector.replicate n 5000#32)[k]
      = slowMemory (samplesAddr + BitVec.ofNat 32 (4 * k)) := fun k hk => by
    rw [slowMemory_sample hk, Vector.getElem_replicate]
  have hreduce : ∃ r', reduce slowVariant slowHead r (Vector.replicate n 5000#32) = .ok r' := by
    obtain ⟨hmin, hmax, hsum⟩ := tally_replicate 9999
    have hlist : (Vector.replicate n 5000#32).toList = List.replicate (9999 + 1) 5000#32 :=
      Vector.toList_replicate
    rw [reduce, hlist]
    rw [hmin, hmax, hsum, if_neg (by decide)]
    exact ⟨_, rfl⟩
  obtain ⟨r', hr'⟩ := hreduce
  refine ⟨r', ?_⟩
  have hflash : Returns access (attempt (Op.flash slowVariant.elf) : Script Op.Answer String Unit)
      slowMemory () slowMemory := returns_attempt.mpr trivial
  have hsleep : Returns access (attempt (Op.sleep 20) : Script Op.Answer String Unit)
      slowMemory () slowMemory := returns_attempt.mpr trivial
  have hawait : Returns access (awaitDone slowVariant 19) slowMemory slowHead slowMemory := by
    refine returns_bind.mpr ⟨slowHead, slowMemory, returns_attempt.mpr slowMemory_head, ?_⟩
    rw [if_pos (by decide)]
    exact returns_pure.mpr ⟨rfl, rfl⟩
  refine returns_bind.mpr ⟨_, _, hflash, returns_bind.mpr ⟨_, _, hsleep, ?_⟩⟩
  refine returns_bind.mpr ⟨_, _, hawait, returns_bind.mpr ⟨r, _, returns_except.mpr ⟨hr, rfl⟩, ?_⟩⟩
  refine returns_bind.mpr ⟨_, _, returns_attempt.mpr hsamples, ?_⟩
  exact returns_except.mpr ⟨hr', rfl⟩

/-- Its percentiles are 4095. -/
theorem percentiles_clamped_slow : let _ : Pio.ShiftModel := ⟨fun _ _ => 0⟩
    ∃ r : Result, Returns access (runTarget (.error "") slowVariant) slowMemory r slowMemory ∧
      r.Reports (((samplesIn slowMemory).map BitVec.toNat).map (min (hist - 1))) := by
  intro _
  obtain ⟨r, hr⟩ := exists_returns
  exact ⟨r, hr, (percentiles_clamped hr).1⟩

/-- They are not the percentiles of the samples, none of which is below 5000. -/
theorem percentiles_tooLow : let _ : Pio.ShiftModel := ⟨fun _ _ => 0⟩
    ∃ r : Result, Returns access (runTarget (.error "") slowVariant) slowMemory r slowMemory ∧
      (∀ s ∈ samplesIn slowMemory, s = 5000#32) ∧ r.p50 = 4095#32 ∧
      ¬ r.Reports ((samplesIn slowMemory).map BitVec.toNat) := by
  intro _
  obtain ⟨r, hr⟩ := exists_returns
  have hreports := runTarget_reports hr
  rw [bins_eq] at hreports
  have hcut : ∀ s ∈ ((samplesIn slowMemory).map BitVec.toNat).map (min (hist - 1)), s = 4095 := by
    intro s hs
    obtain ⟨x, hx, rfl⟩ := List.mem_map.mp hs
    obtain ⟨w, hw, rfl⟩ := List.mem_map.mp hx
    rw [mem_samplesIn_slowMemory hw]
    decide
  have hlow : 4095 ≤ r.p50.toNat := hreports.lower 4095 fun s hs => (hcut s hs).ge
  have hhigh : r.p999.toNat ≤ 4095 := hreports.upper 4095 fun s hs => (hcut s hs).le
  have hp50 : r.p50.toNat = 4095 :=
    le_antisymm ((hreports.middle.1.trans hreports.middle.2).trans hhigh) hlow
  refine ⟨r, hr, fun s hs => mem_samplesIn_slowMemory hs, BitVec.eq_of_toNat_eq hp50, fun h => ?_⟩
  have hraw : 5000 ≤ r.p50.toNat := h.lower 5000 fun s hs => by
    obtain ⟨w, hw, rfl⟩ := List.mem_map.mp hs
    rw [mem_samplesIn_slowMemory hw]
    decide
  omega

end IrqLatency
