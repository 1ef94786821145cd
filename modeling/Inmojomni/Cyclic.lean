import Mathlib.Data.List.Basic
import Mathlib.Data.Nat.ModEq
import Mathlib.Logic.Function.Basic

/-!
# A stream in a cyclic buffer

The two ends of a cyclic buffer are best thought of as positions in an unbounded stream that
only ever grow: position `j` lives in cell `j % cap`, and the offsets that are stored are the
positions modulo `cap`. `Holds cells cap lo stream` says that the cells still have everything
of the stream from position `lo` on. Appending to the stream keeps it as long as no more than
`cap` positions are kept (`Holds.append`); giving positions up always does (`Holds.mono`).

The other lemmas recover what code computes from the two offsets: the next offset by
comparison instead of division, the distance between the ends, and the room left when one cell
is kept free to tell a full buffer from an empty one.
-/

namespace Cyclic

variable {α : Type} {cap : ℕ}

/-! ### Positions and offsets -/

/-- Two positions less than a round apart have different offsets. -/
theorem mod_ne_mod {i j : ℕ} (hlt : i < j) (hcap : j < i + cap) : i % cap ≠ j % cap := by
  intro heq
  have hdvd : cap ∣ j - i := (Nat.modEq_iff_dvd' hlt.le).mp heq
  have hle := Nat.le_of_dvd (by omega) hdvd
  omega

/-- The next offset, by comparison. -/
theorem next_mod {i : ℕ} (hcap : 0 < cap) :
    (if i % cap + 1 = cap then 0 else i % cap + 1) = (i + 1) % cap := by
  have hlt := Nat.mod_lt i hcap
  rw [← Nat.mod_add_mod]
  split
  case isTrue h => rw [h, Nat.mod_self]
  case isFalse h => exact (Nat.mod_eq_of_lt (by omega)).symm

/-- How far the end `hi` is ahead of `lo`, from their offsets. -/
theorem distance_mod {lo hi : ℕ} (hle : lo ≤ hi) (hcap : hi < lo + cap) :
    (hi % cap + cap - lo % cap) % cap = hi - lo := by
  have hlt := Nat.mod_lt lo (by omega : 0 < cap)
  obtain ⟨d, rfl⟩ := Nat.exists_eq_add_of_le hle
  rw [Nat.add_sub_cancel_left]
  have hd : d < cap := by omega
  rw [Nat.add_mod lo d cap, Nat.mod_eq_of_lt hd]
  rcases Nat.lt_or_ge (lo % cap + d) cap with h | h
  · rw [Nat.mod_eq_of_lt h, show lo % cap + d + cap - lo % cap = d + cap by omega,
      Nat.add_mod_right, Nat.mod_eq_of_lt hd]
  · rw [Nat.mod_eq_sub_mod h, Nat.mod_eq_of_lt (a := lo % cap + d - cap) (by omega),
      show lo % cap + d - cap + cap - lo % cap = d by omega, Nat.mod_eq_of_lt hd]

/-- The room between the write offset and the read offset, with one cell kept free. -/
theorem room_mod {lo hi : ℕ} (hle : lo ≤ hi) (hcap : hi < lo + cap) :
    (if hi % cap < lo % cap then lo % cap - hi % cap - 1 else cap - 1 - hi % cap + lo % cap)
      = cap - 1 - (hi - lo) := by
  have hlo := Nat.mod_lt lo (by omega : 0 < cap)
  have hhi := Nat.mod_lt hi (by omega : 0 < cap)
  rw [← distance_mod hle hcap]
  split
  case isTrue h => rw [Nat.mod_eq_of_lt (a := _ - _) (by omega)]; omega
  case isFalse h =>
    rw [show hi % cap + cap - lo % cap = hi % cap - lo % cap + cap by omega, Nat.add_mod_right,
      Nat.mod_eq_of_lt (a := _ - _) (by omega)]
    omega

/-! ### The cells -/

/-- The cells have the stream from position `lo` on. -/
def Holds (cells : ℕ → α) (cap lo : ℕ) (stream : List α) : Prop :=
  ∀ j, lo ≤ j → (h : j < stream.length) → cells (j % cap) = stream[j]

namespace Holds

variable {cells cells' : ℕ → α} {lo : ℕ} {stream : List α}

theorem empty (cells : ℕ → α) (cap lo : ℕ) : Holds cells cap lo [] :=
  fun _ _ h => absurd h (Nat.not_lt_zero _)

/-- Only the cells of the buffer matter. -/
theorem congr (hcap : 0 < cap) (h : Holds cells cap lo stream)
    (hcells : ∀ i < cap, cells' i = cells i) : Holds cells' cap lo stream :=
  fun j hj hlt => (hcells _ (Nat.mod_lt j hcap)).trans (h j hj hlt)

/-- The reader gives positions up. -/
theorem mono (h : Holds cells cap lo stream) {lo' : ℕ} (hle : lo ≤ lo') :
    Holds cells cap lo' stream :=
  fun j hj hlt => h j (hle.trans hj) hlt

/-- The writer fills the cell after the end of the stream, which holds nothing of it. -/
theorem append (h : Holds cells cap lo stream) (hroom : stream.length < lo + cap) (x : α) :
    Holds (Function.update cells (stream.length % cap) x) cap lo (stream ++ [x]) := by
  intro j hj hlt
  rcases Nat.lt_or_ge j stream.length with hold | hnew
  · rw [Function.update_of_ne (mod_ne_mod hold (by omega)), List.getElem_append_left hold]
    exact h j hj hold
  · obtain rfl : j = stream.length := by
      rw [List.length_append, List.length_singleton] at hlt
      omega
    rw [Function.update_self, List.getElem_concat_length rfl]

end Holds

end Cyclic
