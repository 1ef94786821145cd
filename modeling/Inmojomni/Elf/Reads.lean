import Inmojomni.Elf
import Inmojomni.Effect.Fallible
import Mathlib.Data.List.GetD

/-!
# What the verifier reads

A read succeeds exactly when what it reads lies inside the file, and then its value is what
stands there: `word16` and `word32` are the little-endian words at an offset.
-/

namespace Elf

variable {d : List Byte}

/-- The half word at `off`. -/
def word16 (d : List Byte) (off : ℕ) : Word :=
  (d.getD off 0).setWidth 32 ||| ((d.getD (off + 1) 0).setWidth 32 <<< 8)

/-- The word at `off`. -/
def word32 (d : List Byte) (off : ℕ) : Word :=
  (d.getD off 0).setWidth 32 ||| ((d.getD (off + 1) 0).setWidth 32 <<< 8) |||
    ((d.getD (off + 2) 0).setWidth 32 <<< 16) ||| ((d.getD (off + 3) 0).setWidth 32 <<< 24)

theorem byte_eq_ok_iff {i : ℕ} {b : Byte} :
    byte d i = .ok b ↔ i < d.length ∧ b = d.getD i 0 := by
  rcases Nat.lt_or_ge i d.length with hlt | hge
  · rw [byte, List.getElem?_eq_getElem hlt, List.getD_eq_getElem _ _ hlt]
    exact ⟨fun h => ⟨hlt, (Except.ok.inj h).symm⟩, fun h => congrArg Except.ok h.2.symm⟩
  · rw [byte, List.getElem?_eq_none hge]
    exact iff_of_false nofun fun h => absurd h.1 (Nat.not_lt.mpr hge)

theorem byte_of_lt {i : ℕ} (h : i < d.length) : byte d i = .ok (d.getD i 0) :=
  byte_eq_ok_iff.mpr ⟨h, rfl⟩

theorem rd16_eq {off : ℕ} (h : off + 2 ≤ d.length) : rd16 d off = .ok (word16 d off) := by
  rw [rd16, byte_of_lt (by omega), byte_of_lt (by omega)]
  rfl

theorem rd32_eq {off : ℕ} (h : off + 4 ≤ d.length) : rd32 d off = .ok (word32 d off) := by
  rw [rd32, byte_of_lt (by omega), byte_of_lt (by omega), byte_of_lt (by omega),
    byte_of_lt (by omega)]
  rfl

/-- A word is read when its last byte is there. -/
theorem rd32_eq_ok_iff {off : ℕ} {v : Word} :
    rd32 d off = .ok v ↔ off + 4 ≤ d.length ∧ v = word32 d off := by
  constructor
  · intro h
    have hin : off + 4 ≤ d.length := by
      simp only [rd32, Fallible.bind_eq_ok_iff] at h
      obtain ⟨-, -, -, -, -, -, b3, hb3, -⟩ := h
      exact (byte_eq_ok_iff.mp hb3).1
    rw [rd32_eq hin] at h
    exact ⟨hin, (Except.ok.inj h).symm⟩
  · rintro ⟨hin, rfl⟩
    exact rd32_eq hin

/-- A run of bytes. -/
theorem mapM_byte {off n : ℕ} (h : off + n ≤ d.length) :
    (List.range n).mapM (fun i => byte d (off + i)) = .ok ((d.drop off).take n) := by
  have hbyte : ∀ i ∈ List.range n, byte d (off + i) = .ok (d.getD (off + i) 0) := fun i hi =>
    byte_of_lt (by have := List.mem_range.mp hi; omega)
  rw [Fallible.mapM_eq_ok hbyte]
  refine congrArg Except.ok (List.ext_getElem (by simp; omega) fun i hi hi' => ?_)
  rw [List.length_map, List.length_range] at hi
  rw [List.getElem_map, List.getElem_range, List.getElem_take, List.getElem_drop,
    List.getD_eq_getElem]

/-! ### Little-endian words -/

/-- The four bytes of a word, little end first. -/
def bytes32 (v : Word) : List Byte :=
  [v.setWidth 8, (v >>> 8).setWidth 8, (v >>> 16).setWidth 8, (v >>> 24).setWidth 8]

theorem word32_bytes32 (v : Word) : word32 (bytes32 v) 0 = v := by
  refine BitVec.eq_of_getLsbD_eq fun i hi => ?_
  simp only [word32, bytes32, List.getD_cons_zero, List.getD_cons_succ, BitVec.getLsbD_or,
    BitVec.getLsbD_shiftLeft, BitVec.getLsbD_setWidth, BitVec.getLsbD_ushiftRight]
  grind

/-- A word is the same wherever its bytes stand. -/
theorem word32_drop (d : List Byte) (off : ℕ) : word32 (d.drop off) 0 = word32 d off := by
  simp only [word32, List.getD_eq_getElem?_getD, List.getElem?_drop, Nat.add_zero, Nat.zero_add]

/-! ### Rounds of the named checks -/

@[simp] theorem reportIf_eq_nil_iff {p : Prop} [Decidable p] {f : Failure} :
    reportIf p f = [] ↔ ¬ p := by
  rw [reportIf]
  split
  · next h => exact iff_of_false (List.cons_ne_nil _ _) (not_not.mpr h)
  · next h => exact iff_of_true rfl h

section Rounds

variable {raw : List Byte} {s : Sect} {st : Named} {fails : List Failure}

theorem checkNamed_boot2 (hname : s.name = ".boot2") (h : checkBoot2 raw s = .ok fails) :
    checkNamed raw st s = .ok { st with haveBoot2 := true, fails := st.fails ++ fails } := by
  rw [checkNamed, if_pos hname, h]
  rfl

theorem checkNamed_vectorTable (hname : s.name = ".vector_table")
    (h : checkVectorTable raw s = .ok fails) :
    checkNamed raw st s = .ok { st with haveVt := true, fails := st.fails ++ fails } := by
  rw [checkNamed, if_neg (by rw [hname]; decide), if_pos hname, h]
  rfl

theorem checkNamed_other (hboot2 : s.name ≠ ".boot2") (hvt : s.name ≠ ".vector_table") :
    checkNamed raw st s = .ok st := by
  rw [checkNamed, if_neg hboot2, if_neg hvt]
  rfl

end Rounds

end Elf
