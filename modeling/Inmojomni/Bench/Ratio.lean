import Inmojomni.Mmio
import Inmojomni.Rounding

/-!
# The ratios of the benchmark

The result table prints a time relative to another with `_ratio2`, which rounds once, to hundredths.
The bar chart makes thousandths of the same times first, cutting off the rest, and rounds those. Both
print the ratio rounded half up to hundredths (`ratios_agree`).
-/

/-- `_ratio2` of the result table -/
def Bench.ratio2 (num den : Word) : String :=
  if den = 0#32 then "inf"
  else
    let centi := (num.setWidth 64 * 100#64 + den.setWidth 64 / 2#64) / den.setWidth 64
    let whole := centi / 100#64
    let frac := (centi % 100#64).toNat
    let fs := toString frac
    let fs := if frac < 10 then "0" ++ fs else fs
    toString whole.toNat ++ "." ++ fs

namespace Chart

/-- `pm` of `render` -/
def permille (v clang : BitVec 64) : BitVec 64 := v * 1000#64 / clang

def ratioStr (permille : BitVec 64) : String :=
  let centi := (permille + 5#64) / 10#64
  let s := toString (centi / 100#64).toNat ++ "."
  let frac := (centi % 100#64).toNat
  let s := if frac < 10 then s ++ "0" else s
  s ++ toString frac

end Chart

namespace Bench

open Rounding

/-- A number of hundredths: the whole part, a point and two digits. -/
def hundredths (h : ℕ) : String :=
  toString (h / 100) ++ "." ++ String.ofList [Nat.digitChar (h % 100 / 10), Nat.digitChar (h % 10)]

/-- A number below 100, with a zero before it if it has one digit. -/
theorem two_digits : ∀ d < 100, (if d < 10 then "0" ++ toString d else toString d)
    = String.ofList [Nat.digitChar (d / 10), Nat.digitChar (d % 10)] := by
  decide

theorem hundredths_eq (h : ℕ) : hundredths h = toString (h / 100) ++ "." ++
    if h % 100 < 10 then "0" ++ toString (h % 100) else toString (h % 100) := by
  rw [two_digits _ (Nat.mod_lt _ (by decide)), hundredths, Nat.mod_mod_of_dvd _ (by decide)]

section

variable {v c : Word}

theorem toNat_wide : (v.setWidth 64).toNat = v.toNat := by
  have hv := v.isLt
  rw [BitVec.toNat_setWidth, Nat.mod_eq_of_lt (by omega)]

/-- Nothing overflows on the way to the hundredths of the table. -/
theorem toNat_centi : ((v.setWidth 64 * 100#64 + c.setWidth 64 / 2#64) / c.setWidth 64).toNat
    = halfUp (100 * v.toNat) c.toNat := by
  have hv := v.isLt
  have hc := c.isLt
  have hprod : (v.setWidth 64 * 100#64).toNat = 100 * v.toNat := by
    rw [BitVec.toNat_mul, toNat_wide]
    change v.toNat * 100 % 2 ^ 64 = _
    omega
  have hhalf : (c.setWidth 64 / 2#64).toNat = c.toNat / 2 := by
    rw [BitVec.toNat_udiv, toNat_wide]
    rfl
  rw [BitVec.toNat_udiv, BitVec.toNat_add, hprod, hhalf, toNat_wide, Nat.mod_eq_of_lt (by omega),
    add_half_div]

/-- Nor on the way to those of the chart. -/
theorem toNat_centi_permille (hc : c ≠ 0#32) :
    ((Chart.permille (v.setWidth 64) (c.setWidth 64) + 5#64) / 10#64).toNat
      = halfUp (100 * v.toNat) c.toNat := by
  have hv := v.isLt
  have hpos : 0 < c.toNat := Nat.pos_of_ne_zero fun h => hc (BitVec.eq_of_toNat_eq h)
  have hprod : (v.setWidth 64 * 1000#64).toNat = 2 * 5 * (100 * v.toNat) := by
    rw [BitVec.toNat_mul, toNat_wide]
    change v.toNat * 1000 % 2 ^ 64 = _
    omega
  have hpm : (Chart.permille (v.setWidth 64) (c.setWidth 64)).toNat
      = 2 * 5 * (100 * v.toNat) / c.toNat := by
    rw [Chart.permille, BitVec.toNat_udiv, hprod, toNat_wide]
  have hle : 2 * 5 * (100 * v.toNat) / c.toNat ≤ 2 * 5 * (100 * v.toNat) := Nat.div_le_self _ _
  have hsum : (Chart.permille (v.setWidth 64) (c.setWidth 64) + 5#64).toNat
      = 2 * 5 * (100 * v.toNat) / c.toNat + 5 := by
    rw [BitVec.toNat_add, hpm]
    change (_ + 5) % 2 ^ 64 = _
    omega
  rw [BitVec.toNat_udiv, hsum]
  exact div_add_half_div hpos (by decide)

theorem ratio2_eq (hc : c ≠ 0#32) : ratio2 v c = hundredths (halfUp (100 * v.toNat) c.toNat) := by
  rw [ratio2, if_neg hc, hundredths_eq, ← toNat_centi]
  rfl

theorem ratioStr_eq (hc : c ≠ 0#32) :
    Chart.ratioStr (Chart.permille (v.setWidth 64) (c.setWidth 64))
      = hundredths (halfUp (100 * v.toNat) c.toNat) := by
  rw [hundredths_eq, ← toNat_centi_permille hc]
  generalize hcenti : (Chart.permille (v.setWidth 64) (c.setWidth 64) + 5#64) / 10#64 = centi
  have hfrac : centi.toNat % 100 = (centi % 100#64).toNat := by
    rw [BitVec.toNat_umod]
    rfl
  have hwhole : centi.toNat / 100 = (centi / 100#64).toNat := by
    rw [BitVec.toNat_udiv]
    rfl
  simp only [Chart.ratioStr, hcenti, hfrac, hwhole]
  split
  · rw [String.append_assoc]
  · rfl

end

/-- **Ratios.** The chart and the table print the same string, the ratio rounded half up to
hundredths. -/
theorem ratios_agree (v c : Word) (hc : c ≠ 0#32) :
    Chart.ratioStr (Chart.permille (v.setWidth 64) (c.setWidth 64)) = ratio2 v c ∧
      ratio2 v c = hundredths (halfUp (100 * v.toNat) c.toNat) ∧
      (halfUp (100 * v.toNat) c.toNat : ℤ) = ⌊(100 * v.toNat / c.toNat : ℚ) + 1 / 2⌋ := by
  have hpos : 0 < c.toNat := Nat.pos_of_ne_zero fun h => hc (BitVec.eq_of_toNat_eq h)
  refine ⟨(ratioStr_eq hc).trans (ratio2_eq hc).symm, ratio2_eq hc, ?_⟩
  rw [halfUp_eq_floor hpos]
  push_cast
  rfl

/-- Two thirds. -/
theorem ratios_agree_twoThirds :
    Chart.ratioStr (Chart.permille 2 3) = "0.67" ∧ ratio2 2 3 = "0.67" := by
  obtain ⟨hchart, htable, -⟩ := ratios_agree 2 3 (by decide)
  have h : hundredths (halfUp (100 * (2#32).toNat) (3#32).toNat) = "0.67" := by decide
  exact ⟨(hchart.trans htable).trans h, htable.trans h⟩

end Bench
