import Mathlib.Data.List.Infix
import Mathlib.Data.List.Basic

/-!
# Blocks in a file

A writer puts blocks at their places in a file of a given length, over what was there. Blocks
that do not overlap can be read back, wherever they are and whatever else is in the file
(`stands_putAll`).
-/

namespace Blocks

variable {α : Type}

/-- The block stands in the file at `off`. -/
def Stands (file : List α) (off : ℕ) (block : List α) : Prop := block <+: file.drop off

/-- The block is put at `off`. -/
def put (file : List α) (off : ℕ) (block : List α) : List α :=
  file.take off ++ block ++ file.drop (off + block.length)

/-- Blocks with their places are put one after the other. -/
def putAll (file : List α) (blocks : List (ℕ × List α)) : List α :=
  blocks.foldl (fun file b => put file b.1 b.2) file

/-- One block ends before the other one starts. -/
def Apart (b c : ℕ × List α) : Prop := b.1 + b.2.length ≤ c.1 ∨ c.1 + c.2.length ≤ b.1

/-- The block ends inside the file. -/
def Fits (n : ℕ) (b : ℕ × List α) : Prop := b.1 + b.2.length ≤ n

theorem Apart.symm {b c : ℕ × List α} (h : Apart b c) : Apart c b := Or.symm h

/-! ### Reading blocks -/

section Stands

variable {file : List α} {off : ℕ}

theorem stands_iff {block : List α} :
    Stands file off block ↔ ∀ i < block.length, file[off + i]? = block[i]? := by
  rw [Stands, List.prefix_iff_getElem?]
  refine forall₂_congr fun i hi => ?_
  rw [List.getElem?_drop, List.getElem?_eq_getElem hi]

/-- The parts of a block stand one after the other. -/
theorem stands_append {b c : List α} :
    Stands file off (b ++ c) ↔ Stands file off b ∧ Stands file (off + b.length) c := by
  constructor
  · intro h
    refine ⟨(List.prefix_append b c).trans h, ?_⟩
    have hdrop := h.drop b.length
    rwa [List.drop_left, List.drop_drop] at hdrop
  · rintro ⟨⟨t, hb⟩, hc⟩
    rw [Stands, ← hb, List.prefix_append_right_inj]
    rwa [Stands, ← List.drop_drop, ← hb, List.drop_left] at hc

/-- What stands in a block that stands in the file. -/
theorem Stands.trans {block part : List α} {i : ℕ} (h : Stands file off block)
    (hpart : Stands block i part) : Stands file (off + i) part := by
  have hdrop := h.drop i
  rw [List.drop_drop] at hdrop
  exact List.IsPrefix.trans hpart hdrop

/-- A block that stands in the file lies inside it. -/
theorem Stands.le_length {block : List α} (h : Stands file off block) (hne : block ≠ []) :
    off + block.length ≤ file.length := by
  have hle := h.length_le
  rw [List.length_drop] at hle
  have hpos := List.length_pos_of_ne_nil hne
  omega

end Stands

/-! ### Putting blocks -/

section Put

variable {file block : List α} {off : ℕ}

@[simp] theorem length_put (h : off + block.length ≤ file.length) :
    (put file off block).length = file.length := by
  rw [put, List.length_append, List.length_append, List.length_take, List.length_drop]
  omega

theorem stands_put (h : off + block.length ≤ file.length) :
    Stands (put file off block) off block := by
  have hlen : (file.take off).length = off := List.length_take_of_le (by omega)
  rw [Stands, put, List.append_assoc, List.drop_left' hlen]
  exact List.prefix_append _ _

/-- Outside a block the file is as it was. -/
theorem getElem?_put (h : off + block.length ≤ file.length) {i : ℕ}
    (hi : i < off ∨ off + block.length ≤ i) : (put file off block)[i]? = file[i]? := by
  have hlen : (file.take off).length = off := List.length_take_of_le (by omega)
  rw [put, List.append_assoc]
  rcases hi with hi | hi
  · rw [List.getElem?_append_left (by omega), List.getElem?_take_of_lt hi]
  · rw [List.getElem?_append_right (by omega), hlen, List.getElem?_append_right (by omega),
      List.getElem?_drop]
    congr 1
    omega

theorem Stands.put {off' : ℕ} {block' : List α} (hs : Stands file off block)
    (h : off' + block'.length ≤ file.length) (hapart : Apart (off, block) (off', block')) :
    Stands (put file off' block') off block := by
  rw [stands_iff] at hs ⊢
  intro i hi
  rw [getElem?_put h, hs i hi]
  rcases hapart with hle | hle
  · exact Or.inl (by change off + block.length ≤ off' at hle; omega)
  · exact Or.inr (by change off' + block'.length ≤ off at hle; omega)

end Put

section PutAll

variable {file : List α}

theorem length_putAll {blocks : List (ℕ × List α)} (hfits : ∀ b ∈ blocks, Fits file.length b) :
    (putAll file blocks).length = file.length := by
  induction blocks generalizing file with
  | nil => rfl
  | cons b blocks ih =>
    obtain ⟨hb, hfits⟩ := List.forall_mem_cons.mp hfits
    have hlen := length_put hb
    rw [← hlen]
    exact ih fun c hc => by
      rw [hlen]
      exact hfits c hc

theorem Stands.putAll {b : ℕ × List α} {blocks : List (ℕ × List α)} (hs : Stands file b.1 b.2)
    (hfits : ∀ c ∈ blocks, Fits file.length c) (hapart : ∀ c ∈ blocks, Apart b c) :
    Stands (putAll file blocks) b.1 b.2 := by
  induction blocks generalizing file with
  | nil => exact hs
  | cons c blocks ih =>
    obtain ⟨hc, hfits⟩ := List.forall_mem_cons.mp hfits
    obtain ⟨hbc, hapart⟩ := List.forall_mem_cons.mp hapart
    refine ih (hs.put hc hbc) (fun d hd => ?_) hapart
    rw [length_put hc]
    exact hfits d hd

/-- Blocks that do not overlap can be read back. -/
theorem stands_putAll {blocks : List (ℕ × List α)} (hfits : ∀ b ∈ blocks, Fits file.length b)
    (hapart : blocks.Pairwise Apart) {b : ℕ × List α} (hb : b ∈ blocks) :
    Stands (putAll file blocks) b.1 b.2 := by
  induction blocks generalizing file with
  | nil => exact absurd hb List.not_mem_nil
  | cons c blocks ih =>
    obtain ⟨hc, hfits⟩ := List.forall_mem_cons.mp hfits
    obtain ⟨hcs, hapart⟩ := List.pairwise_cons.mp hapart
    have hfits' : ∀ d ∈ blocks, Fits (put file c.1 c.2).length d := fun d hd => by
      rw [length_put hc]
      exact hfits d hd
    rcases List.mem_cons.mp hb with rfl | hb
    · exact (stands_put hc).putAll hfits' hcs
    · exact ih hfits' hapart hb

end PutAll

end Blocks
