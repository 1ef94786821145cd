import Inmojomni.Text

/-!
# IR retargeting: rewrite riscv32 LLVM IR as ARMv6-M IR

Only what names the target is changed: the `target triple` and `target datalayout` lines, and
the values of the `"target-cpu"` and `"target-features"` function attributes. This is pure
string processing, on bytes: texts are UTF-8, and all that is searched for is ASCII.
-/

namespace Retarget

/-- A text. -/
abbrev Bytes := List UInt8

/-- The bytes of a string literal. -/
def bytes (s : String) : Bytes := s.toUTF8.data.toList

def tripleMcu : Bytes := bytes "thumbv6m-unknown-none-eabi"

def cpu : Bytes := bytes "cortex-m0plus"

/-- ARMv6-M datalayout. -/
def datalayoutMcu : Bytes := bytes "e-m:e-p:32:32-Fi8-i64:64-v128:64:128-a:0:32-n32-S64"

/-- The double quote. -/
def quote : UInt8 := 34

/-- The equals sign. -/
def equals : UInt8 := 61

def newline : UInt8 := 10

/-- `key` between double quotes. -/
def quoted (key : Bytes) : Bytes := quote :: (key ++ [quote])

theorem quoted_ne_nil (key : Bytes) : quoted key ≠ [] := List.cons_ne_nil _ _

/-- The loop of `_set_quoted_attr`: `out` is done, `rest` is still to be searched. -/
def setQuotedAttrLoop (key value out rest : Bytes) : Bytes :=
  match _hfind : Text.find (quoted key) rest with
  | none => out ++ rest
  | some idx =>
    let after := idx + (quoted key).length
    if rest[after]? = some equals ∧ rest[after + 1]? = some quote then
      match Text.findFrom [quote] rest (after + 2) with
      | none => out ++ rest
      | some close =>
        -- the old value is passed over with its quotes
        setQuotedAttrLoop key value
          (out ++ (rest.take idx ++ quoted key ++ equals :: quoted value)) (rest.drop (close + 1))
    else
      setQuotedAttrLoop key value
        (out ++ (rest.take idx ++ quoted key ++ equals :: quoted value)) (rest.drop after)
termination_by rest.length
decreasing_by
  all_goals
    have hle := Text.add_length_le_of_find _hfind (quoted_ne_nil key)
    have hpos := List.length_pos_of_ne_nil (quoted_ne_nil key)
    rw [List.length_drop]
    omega

section Loop

variable {key value out rest : Bytes} {idx : ℕ}

/-- What the loop appends when it has found the key at `idx`. -/
def setAt (key value rest : Bytes) (idx : ℕ) : Bytes :=
  rest.take idx ++ quoted key ++ equals :: quoted value

/-- The key is found at `idx` with a value. -/
def ValuedAt (key rest : Bytes) (idx : ℕ) : Prop :=
  rest[idx + (quoted key).length]? = some equals ∧ rest[idx + (quoted key).length + 1]? = some quote

theorem setQuotedAttrLoop_none (h : Text.find (quoted key) rest = none) :
    setQuotedAttrLoop key value out rest = out ++ rest := by
  rw [setQuotedAttrLoop]
  split
  case h_1 => rfl
  case h_2 idx hidx => simp [h] at hidx

theorem setQuotedAttrLoop_unclosed (h : Text.find (quoted key) rest = some idx)
    (hv : ValuedAt key rest idx)
    (hc : Text.findFrom [quote] rest (idx + (quoted key).length + 2) = none) :
    setQuotedAttrLoop key value out rest = out ++ rest := by
  rw [setQuotedAttrLoop]
  split
  case h_1 hnone => rfl
  case h_2 i hi =>
    obtain rfl := Option.some.inj (h.symm.trans hi)
    simp only [hc]
    exact if_pos hv

theorem setQuotedAttrLoop_valued (h : Text.find (quoted key) rest = some idx)
    (hv : ValuedAt key rest idx) {close : ℕ}
    (hc : Text.findFrom [quote] rest (idx + (quoted key).length + 2) = some close) :
    setQuotedAttrLoop key value out rest
      = setQuotedAttrLoop key value (out ++ setAt key value rest idx) (rest.drop (close + 1)) := by
  rw [setQuotedAttrLoop]
  split
  case h_1 hnone => simp [h] at hnone
  case h_2 i hi =>
    obtain rfl := Option.some.inj (h.symm.trans hi)
    simp only [hc]
    exact if_pos hv

theorem setQuotedAttrLoop_bare (h : Text.find (quoted key) rest = some idx)
    (hv : ¬ ValuedAt key rest idx) :
    setQuotedAttrLoop key value out rest = setQuotedAttrLoop key value
      (out ++ setAt key value rest idx) (rest.drop (idx + (quoted key).length)) := by
  rw [setQuotedAttrLoop]
  split
  case h_1 hnone => simp [h] at hnone
  case h_2 i hi =>
    obtain rfl := Option.some.inj (h.symm.trans hi)
    exact if_neg hv

end Loop

/-- Set every `"key"="…"` (or bare `"key"`) in `line` to `"key"="value"`. -/
def setQuotedAttr (line key value : Bytes) : Bytes := setQuotedAttrLoop key value [] line

/-- What `retarget_text` makes of one line. -/
def retargetLine (line : Bytes) : Bytes :=
  if bytes "target datalayout" <+: line then
    bytes "target datalayout = \"" ++ datalayoutMcu ++ [quote]
  else if bytes "target triple" <+: line then
    bytes "target triple = \"" ++ tripleMcu ++ [quote]
  else
    setQuotedAttr (setQuotedAttr line (bytes "target-cpu") cpu) (bytes "target-features") []

/-- Rewrite one riscv32 IR module as ARMv6-M IR. -/
def retargetText (src : Bytes) : Bytes :=
  let out := (src.splitOn newline).foldl
    (fun out line => out ++ (retargetLine line ++ [newline])) []
  -- the piece behind the last newline got one too
  out.take (out.length - 1)

end Retarget
