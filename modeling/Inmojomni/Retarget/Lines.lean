import Inmojomni.Retarget

/-!
# The retarget pass is line-wise

`retarget_text` appends a newline to every rewritten line and cuts the last one off again. That
is the line-wise map of `retargetLine` (`retargetText_eq`), so it commutes with joining texts
by newlines, and everything about the shape of the module follows: `retargetText_lines`.

A line comes out byte for byte when neither key occurs in it, since the search then ends at once.
-/

namespace Retarget

variable {key value out rest line : Bytes}

/-! ### One line -/

/-- The loop invents no bytes. -/
theorem mem_setQuotedAttrLoop {x : UInt8} (h : x ∈ setQuotedAttrLoop key value out rest) :
    x ∈ out ∨ x ∈ rest ∨ x ∈ quoted key ∨ x ∈ equals :: quoted value := by
  have hset : ∀ {out rest : Bytes} {idx : ℕ}, x ∈ out ++ setAt key value rest idx →
      x ∈ out ∨ x ∈ rest ∨ x ∈ quoted key ∨ x ∈ equals :: quoted value := by
    intro out rest idx hx
    rw [setAt, List.mem_append, List.mem_append, List.mem_append] at hx
    rcases hx with hx | (hx | hx) | hx
    · exact .inl hx
    · exact .inr (.inl (List.mem_of_mem_take hx))
    · exact .inr (.inr (.inl hx))
    · exact .inr (.inr (.inr hx))
  induction out, rest using setQuotedAttrLoop.induct key value with
  | case1 out rest hf =>
    rw [setQuotedAttrLoop_none hf] at h
    exact (List.mem_append.mp h).imp_right .inl
  | case2 out rest idx hf after hv hc =>
    rw [setQuotedAttrLoop_unclosed hf hv hc] at h
    exact (List.mem_append.mp h).imp_right .inl
  | case3 out rest idx hf after hv close hc ih =>
    rw [setQuotedAttrLoop_valued hf hv hc] at h
    rcases ih h with hx | hx | hx
    · exact hset hx
    · exact .inr (.inl (List.mem_of_mem_drop hx))
    · exact .inr (.inr hx)
  | case4 out rest idx hf after hv ih =>
    rw [setQuotedAttrLoop_bare hf hv] at h
    rcases ih h with hx | hx | hx
    · exact hset hx
    · exact .inr (.inl (List.mem_of_mem_drop hx))
    · exact .inr (.inr hx)

/-- The loop drops nothing that is done. -/
theorem setQuotedAttrLoop_eq_nil_iff :
    setQuotedAttrLoop key value out rest = [] ↔ out = [] ∧ rest = [] := by
  have hset : ∀ (out rest : Bytes) (idx : ℕ), out ++ setAt key value rest idx ≠ [] := by
    intro out rest idx
    simp [setAt]
  have hrest : ∀ {rest : Bytes} {idx : ℕ}, Text.find (quoted key) rest = some idx → rest ≠ [] := by
    rintro rest idx hf rfl
    have hle := Text.add_length_le_of_find hf (quoted_ne_nil key)
    simp [quoted] at hle
  induction out, rest using setQuotedAttrLoop.induct key value with
  | case1 out rest hf => rw [setQuotedAttrLoop_none hf, List.append_eq_nil_iff]
  | case2 out rest idx hf after hv hc =>
    rw [setQuotedAttrLoop_unclosed hf hv hc, List.append_eq_nil_iff]
  | case3 out rest idx hf after hv close hc ih =>
    rw [setQuotedAttrLoop_valued hf hv hc]
    exact iff_of_false (fun h => hset _ _ _ (ih.mp h).1) fun h => hrest hf h.2
  | case4 out rest idx hf after hv ih =>
    rw [setQuotedAttrLoop_bare hf hv]
    exact iff_of_false (fun h => hset _ _ _ (ih.mp h).1) fun h => hrest hf h.2

theorem setQuotedAttr_eq_nil_iff : setQuotedAttr line key value = [] ↔ line = [] := by
  rw [setQuotedAttr, setQuotedAttrLoop_eq_nil_iff]
  exact and_iff_right rfl

/-- A line without the key stays as it is. -/
theorem setQuotedAttr_of_not_infix (h : ¬ quoted key <:+: line) :
    setQuotedAttr line key value = line :=
  setQuotedAttrLoop_none (Text.find_eq_none_iff.mpr h)

theorem newline_not_mem_setQuotedAttr (hk : newline ∉ key) (hv : newline ∉ value)
    (hl : newline ∉ line) : newline ∉ setQuotedAttr line key value := by
  have hquoted : ∀ {t : Bytes}, newline ∉ t → newline ∉ quoted t := by
    intro t ht
    simp [quoted, ht, show newline ≠ quote by decide]
  intro h
  rcases mem_setQuotedAttrLoop h with hx | hx | hx | hx
  · exact List.not_mem_nil hx
  · exact hl hx
  · exact hquoted hk hx
  · rcases List.mem_cons.mp hx with hx | hx
    · exact absurd hx (by decide)
    · exact hquoted hv hx

/-- A rewritten line is one line. -/
theorem newline_not_mem_retargetLine (h : newline ∉ line) : newline ∉ retargetLine line := by
  rw [retargetLine]
  split
  · decide
  split
  · decide
  · exact newline_not_mem_setQuotedAttr (by decide) (by decide)
      (newline_not_mem_setQuotedAttr (by decide) (by decide) h)

theorem retargetLine_eq_nil_iff : retargetLine line = [] ↔ line = [] := by
  have hne : ∀ {t : Bytes}, t ≠ [] → t <+: line → line ≠ [] := by
    rintro t ht hpre rfl
    exact ht (List.prefix_nil.mp hpre)
  rw [retargetLine]
  split
  case isTrue h => exact iff_of_false (by decide) (hne (by decide) h)
  split
  case isTrue h => exact iff_of_false (by decide) (hne (by decide) h)
  case isFalse => rw [setQuotedAttr_eq_nil_iff, setQuotedAttr_eq_nil_iff]

/-- The line names the target: it sets the triple or the datalayout, or has one of the two
attributes. -/
def NamesTarget (line : Bytes) : Prop :=
  bytes "target datalayout" <+: line ∨ bytes "target triple" <+: line ∨
    quoted (bytes "target-cpu") <:+: line ∨ quoted (bytes "target-features") <:+: line

instance (line : Bytes) : Decidable (NamesTarget line) := inferInstanceAs (Decidable (_ ∨ _))

theorem retargetLine_of_not_namesTarget (h : ¬ NamesTarget line) : retargetLine line = line := by
  simp only [NamesTarget, not_or] at h
  obtain ⟨hlayout, htriple, hcpu, hfeatures⟩ := h
  rw [retargetLine, if_neg hlayout, if_neg htriple, setQuotedAttr_of_not_infix hcpu,
    setQuotedAttr_of_not_infix hfeatures]

/-! ### The module -/

/-- The appended newlines separate the rewritten lines, except for the last one. -/
theorem foldl_lines (f : Bytes → Bytes) {ls : List Bytes} (hne : ls ≠ []) (acc : Bytes) :
    ls.foldl (fun out line => out ++ (f line ++ [newline])) acc
      = acc ++ [newline].intercalate (ls.map f) ++ [newline] := by
  induction ls generalizing acc with
  | nil => exact absurd rfl hne
  | cons l ls ih =>
    rcases eq_or_ne ls [] with rfl | hls
    · simp
    · rw [List.foldl_cons, ih hls, List.map_cons,
        List.intercalate_cons_of_ne_nil (by simpa using hls)]
      simp only [List.append_assoc]

theorem retargetText_eq (src : Bytes) :
    retargetText src = Text.linewise newline retargetLine src := by
  rw [retargetText, foldl_lines retargetLine (List.splitOn_ne_nil newline src), List.nil_append]
  simp only [List.length_append, List.length_singleton, Nat.add_sub_cancel]
  exact List.take_left

/-- A text without a newline is one line. -/
theorem retargetText_line (h : newline ∉ line) :
    retargetText line = retargetLine line := by
  rw [retargetText_eq, Text.linewise, List.splitOn_eq_singleton h, List.map_singleton,
    List.intercalate_singleton]

/-- The line with number `i` comes from the line with number `i`. -/
theorem getElem?_splitOn_retargetText (src : Bytes) (i : ℕ) :
    ((retargetText src).splitOn newline)[i]? = (src.splitOn newline)[i]?.map retargetLine := by
  rw [retargetText_eq, Text.splitOn_linewise fun _ => newline_not_mem_retargetLine,
    List.getElem?_map]

/-- **The pass is line-wise.** It commutes with joining texts by a newline; so it keeps the
number of newlines and a newline at the end, each output line is determined by the input line
with its number, and a line that does not name the target comes out as it is. -/
theorem retargetText_lines :
    (∀ a b : Bytes,
      retargetText (a ++ newline :: b) = retargetText a ++ newline :: retargetText b) ∧
    (∀ src : Bytes, (retargetText src).count newline = src.count newline) ∧
    (∀ src : Bytes, (retargetText src).getLast? = some newline ↔ src.getLast? = some newline) ∧
    (∀ (src src' : Bytes) (i : ℕ), (src.splitOn newline)[i]? = (src'.splitOn newline)[i]? →
      ((retargetText src).splitOn newline)[i]? = ((retargetText src').splitOn newline)[i]?) ∧
    ∀ (src : Bytes) (i : ℕ), ∀ line ∈ (src.splitOn newline)[i]?, ¬ NamesTarget line →
      ((retargetText src).splitOn newline)[i]? = some line := by
  have hnl : ∀ l, newline ∉ l → newline ∉ retargetLine l := fun _ => newline_not_mem_retargetLine
  refine ⟨fun a b => ?_, fun src => ?_, fun src => ?_, fun src src' i h => ?_,
    fun src i line hline hnot => ?_⟩
  · simp only [retargetText_eq, Text.linewise_append_cons]
  · rw [retargetText_eq, Text.count_linewise hnl]
  · rw [retargetText_eq, Text.getLast?_linewise hnl fun _ => retargetLine_eq_nil_iff]
  · rw [getElem?_splitOn_retargetText, getElem?_splitOn_retargetText, h]
  · rw [getElem?_splitOn_retargetText, Option.mem_def.mp hline, Option.map_some,
      retargetLine_of_not_namesTarget hnot]

/-- A store between two lines. -/
theorem retargetText_lines_store :
    ((retargetText (bytes "\nstore volatile i32 0\n")).splitOn newline)[1]?
      = some (bytes "store volatile i32 0") :=
  retargetText_lines.2.2.2.2 _ 1 _ rfl (by decide)

end Retarget
