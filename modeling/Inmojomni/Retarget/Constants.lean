import Inmojomni.Retarget.Lines

/-!
# Constants and metadata under the retarget pass

The pass looks for a quoted key in every line, so it finds it inside the string of a constant
and among the strings of a metadata node too, and there it writes the value. A line stays as it
is exactly when it is `Settled`: each key that the search meets has the new value already, or
an old one whose quotes are not closed (`setQuotedAttr_eq_self_iff`).

There are two rewrites, and the second could undo the first. It does not: where a rewrite first
changes a line, it does so right behind its own key, and the two keys with what the rewrites
write behind them never end alike (`setQuotedAttr_setQuotedAttr_eq_self_iff`).
-/

namespace Retarget

variable {key value line pre rest tail old : Bytes} {idx : ℕ}

/-- What stands behind a key that has its value. -/
def assigned (value : Bytes) : Bytes := equals :: quoted value

/-! ### One rewrite -/

/-- What is done only gets in front of the result. -/
theorem setQuotedAttrLoop_eq_append (out rest : Bytes) :
    setQuotedAttrLoop key value out rest = out ++ setQuotedAttr rest key value := by
  simp only [setQuotedAttr]
  refine setQuotedAttrLoop.induct key value
    (fun _ rest => ∀ out, setQuotedAttrLoop key value out rest
      = out ++ setQuotedAttrLoop key value [] rest) ?absent ?unclosed ?valued ?bare [] rest out
  case absent =>
    intro _ rest hf out
    rw [setQuotedAttrLoop_none hf, setQuotedAttrLoop_none hf, List.nil_append]
  case unclosed =>
    intro _ rest idx hf after hv hc out
    rw [setQuotedAttrLoop_unclosed hf hv hc, setQuotedAttrLoop_unclosed hf hv hc, List.nil_append]
  case valued =>
    intro _ rest idx hf after hv close hc ih out
    rw [setQuotedAttrLoop_valued hf hv hc, setQuotedAttrLoop_valued hf hv hc, ih (_ ++ _),
      ih ([] ++ _)]
    simp only [List.append_assoc, List.nil_append]
  case bare =>
    intro _ rest idx hf after hv ih out
    rw [setQuotedAttrLoop_bare hf hv, setQuotedAttrLoop_bare hf hv, ih (_ ++ _), ih ([] ++ _)]
    simp only [List.append_assoc, List.nil_append]

/-- The search finds the key behind `pre`. -/
def FoundBehind (key pre line : Bytes) : Prop := Text.find (quoted key) line = some pre.length

instance (key pre line : Bytes) : Decidable (FoundBehind key pre line) :=
  inferInstanceAs (Decidable (_ = _))

/-- What is found is the key, with something in front of it and something behind. -/
theorem exists_eq_of_find (h : Text.find (quoted key) line = some idx) :
    ∃ pre tail, line = pre ++ quoted key ++ tail ∧ pre.length = idx := by
  have hle := Text.add_length_le_of_find h (quoted_ne_nil key)
  obtain ⟨tail, htail⟩ := Text.prefix_drop_of_find h
  refine ⟨line.take idx, tail, ?_, List.length_take_of_le (by omega)⟩
  rw [List.append_assoc, htail, List.take_append_drop]

/-- A value follows exactly if an equals sign and a quote do. -/
theorem valuedAt_iff : ValuedAt key (pre ++ quoted key ++ tail) pre.length ↔
    [equals, quote] <+: tail := by
  have hget : ∀ i, (pre ++ quoted key ++ tail)[pre.length + (quoted key).length + i]? = tail[i]? :=
    fun i => by
      rw [← List.length_append, List.getElem?_append_right (by omega), Nat.add_sub_cancel_left]
  have hget₀ := hget 0
  rw [Nat.add_zero] at hget₀
  rw [ValuedAt, hget₀, hget 1]
  match tail with
  | [] => simp
  | [a] => simp
  | a :: b :: tail => simp [List.cons_prefix_cons, eq_comm]

/-- The close is searched behind the opening quote of the old value. -/
theorem findFrom_close : Text.findFrom [quote] (pre ++ quoted key ++ equals :: quote :: tail)
      (pre.length + (quoted key).length + 2)
    = (Text.find [quote] tail).map (· + (pre.length + (quoted key).length + 2)) := by
  rw [Text.findFrom, ← List.drop_drop, ← List.length_append, List.drop_left]
  rfl

theorem setAt_eq :
    setAt key value (pre ++ quoted key ++ tail) pre.length
      = pre ++ quoted key ++ assigned value := by
  rw [setAt, List.append_assoc pre, List.take_left]
  rfl

/-- A key whose value is not closed ends the rewrite. -/
theorem setQuotedAttr_unclosed
    (hf : FoundBehind key pre (pre ++ quoted key ++ equals :: quote :: rest)) (hq : quote ∉ rest) :
    setQuotedAttr (pre ++ quoted key ++ equals :: quote :: rest) key value
      = pre ++ quoted key ++ equals :: quote :: rest := by
  have hnone : Text.find [quote] rest = none :=
    Text.find_eq_none_iff.mpr fun h => hq (h.subset (List.mem_singleton_self quote))
  refine setQuotedAttrLoop_unclosed hf (valuedAt_iff.mpr ⟨rest, rfl⟩) ?_
  rw [findFrom_close, hnone, Option.map_none]

/-- A closed value is replaced. -/
theorem setQuotedAttr_valued
    (hf : FoundBehind key pre (pre ++ quoted key ++ (assigned old ++ rest))) (hq : quote ∉ old) :
    setQuotedAttr (pre ++ quoted key ++ (assigned old ++ rest)) key value
      = pre ++ quoted key ++ (assigned value ++ setQuotedAttr rest key value) := by
  have hshape : assigned old ++ rest = equals :: quote :: (old ++ quote :: rest) := by
    simp [assigned, quoted]
  rw [hshape] at hf ⊢
  have hclose : Text.findFrom [quote]
      (pre ++ quoted key ++ equals :: quote :: (old ++ quote :: rest))
      (pre.length + (quoted key).length + 2) = _ := findFrom_close
  rw [Text.find_singleton hq, Option.map_some] at hclose
  rw [setQuotedAttr, setQuotedAttrLoop_valued hf (valuedAt_iff.mpr ⟨_, rfl⟩) hclose, setAt_eq,
    setQuotedAttrLoop_eq_append, List.nil_append, List.append_assoc (pre ++ quoted key)]
  congr 3
  have hlen : old.length + (pre.length + (quoted key).length + 2) + 1
      = (pre ++ quoted key).length + (assigned old).length := by
    simp [assigned, quoted]
    omega
  rw [← hshape, hlen, ← List.drop_drop, List.drop_left, List.drop_left]

/-- A bare key gets its value. -/
theorem setQuotedAttr_bare (hf : FoundBehind key pre (pre ++ quoted key ++ tail))
    (hv : ¬ [equals, quote] <+: tail) :
    setQuotedAttr (pre ++ quoted key ++ tail) key value
      = pre ++ quoted key ++ (assigned value ++ setQuotedAttr tail key value) := by
  rw [setQuotedAttr, setQuotedAttrLoop_bare hf (mt valuedAt_iff.mp hv), setAt_eq,
    setQuotedAttrLoop_eq_append, List.nil_append, List.append_assoc (pre ++ quoted key),
    ← List.length_append, List.drop_left]

/-- Induction along a rewrite, on the line and what becomes of it. -/
theorem setQuotedAttr_induction {motive : Bytes → Bytes → Prop} (key value : Bytes)
    (absent : ∀ line, ¬ quoted key <:+: line → motive line line)
    (unclosed : ∀ pre rest, FoundBehind key pre (pre ++ quoted key ++ equals :: quote :: rest) →
      quote ∉ rest → motive (pre ++ quoted key ++ equals :: quote :: rest)
        (pre ++ quoted key ++ equals :: quote :: rest))
    (valued : ∀ pre old rest, FoundBehind key pre (pre ++ quoted key ++ (assigned old ++ rest)) →
      quote ∉ old → motive rest (setQuotedAttr rest key value) →
      motive (pre ++ quoted key ++ (assigned old ++ rest))
        (pre ++ quoted key ++ (assigned value ++ setQuotedAttr rest key value)))
    (bare : ∀ pre tail, FoundBehind key pre (pre ++ quoted key ++ tail) →
      ¬ [equals, quote] <+: tail → motive tail (setQuotedAttr tail key value) →
      motive (pre ++ quoted key ++ tail)
        (pre ++ quoted key ++ (assigned value ++ setQuotedAttr tail key value)))
    (line : Bytes) : motive line (setQuotedAttr line key value) := by
  induction hn : line.length using Nat.strong_induction_on generalizing line with
  | _ n ih =>
    have hshorter : ∀ {pre tail rest : Bytes}, line = pre ++ quoted key ++ tail →
        rest <:+ tail → motive rest (setQuotedAttr rest key value) := by
      rintro pre tail rest rfl hsuffix
      refine ih rest.length ?_ rest rfl
      have hle := hsuffix.length_le
      have hpos := List.length_pos_of_ne_nil (quoted_ne_nil key)
      simp only [List.length_append] at hn
      omega
    cases hf : Text.find (quoted key) line with
    | none =>
      have hnot := Text.find_eq_none_iff.mp hf
      have heq : setQuotedAttr line key value = line := setQuotedAttr_of_not_infix hnot
      rw [heq]
      exact absent line hnot
    | some idx =>
      obtain ⟨pre, tail, heq, rfl⟩ := exists_eq_of_find hf
      by_cases hv : [equals, quote] <+: tail
      · obtain ⟨body, rfl⟩ := hv
        have hbody : [equals, quote] ++ body = equals :: quote :: body := rfl
        rw [hbody] at heq
        by_cases hq : quote ∈ body
        · -- the value ends at the first quote
          obtain ⟨old, rest, rfl, hold⟩ := List.eq_append_cons_of_mem hq
          have hclosed : equals :: quote :: (old ++ quote :: rest) = assigned old ++ rest := by
            simp [assigned, quoted]
          rw [hclosed] at heq
          have hrest := hshorter heq (List.suffix_append _ _)
          subst heq
          rw [setQuotedAttr_valued hf hold]
          exact valued pre old rest hf hold hrest
        · subst heq
          rw [setQuotedAttr_unclosed hf hq]
          exact unclosed pre body hf hq
      · have htail := hshorter heq List.suffix_rfl
        subst heq
        rw [setQuotedAttr_bare hf hv]
        exact bare pre tail hf hv htail

/-- Each key that the search meets in the line already has the value, up to one whose value is
not closed. -/
inductive Settled (key value : Bytes) : Bytes → Prop
  | absent {line : Bytes} : ¬ quoted key <:+: line → Settled key value line
  | unclosed {pre rest : Bytes} :
      FoundBehind key pre (pre ++ quoted key ++ equals :: quote :: rest) → quote ∉ rest →
      Settled key value (pre ++ quoted key ++ equals :: quote :: rest)
  | set {pre rest : Bytes} : FoundBehind key pre (pre ++ quoted key ++ (assigned value ++ rest)) →
      Settled key value rest → Settled key value (pre ++ quoted key ++ (assigned value ++ rest))

/-- What stands behind the first key of a settled line. -/
theorem Settled.behind (h : Settled key value (pre ++ quoted key ++ tail))
    (hf : FoundBehind key pre (pre ++ quoted key ++ tail)) :
    (∃ rest, tail = equals :: quote :: rest ∧ quote ∉ rest) ∨
      ∃ rest, tail = assigned value ++ rest ∧ Settled key value rest := by
  -- the same search finds one place
  have hplace : ∀ {pre' tail' : Bytes}, pre ++ quoted key ++ tail = pre' ++ quoted key ++ tail' →
      FoundBehind key pre' (pre' ++ quoted key ++ tail') → tail = tail' := by
    intro pre' tail' heq hf'
    rw [FoundBehind, ← heq] at hf'
    have hlen : pre.length = pre'.length := Option.some.inj (hf.symm.trans hf')
    exact (List.append_inj heq (by simp [hlen])).2
  generalize hline : pre ++ quoted key ++ tail = line at h
  cases h with
  | absent hnot =>
    rw [FoundBehind, hline, Text.find_eq_none_iff.mpr hnot] at hf
    cases hf
  | unclosed hf' hq => exact .inl ⟨_, hplace hline hf', hq⟩
  | set hf' hrest => exact .inr ⟨_, hplace hline hf', hrest⟩

theorem assigned_append_inj {x y : Bytes} (hv : quote ∉ value) (ho : quote ∉ old)
    (h : assigned value ++ x = assigned old ++ y) : value = old ∧ x = y := by
  have hbody : value ++ [quote] ++ x = old ++ quote :: y := by
    simpa [assigned, quoted] using h
  have hpre : value ++ [quote] <+: old ++ quote :: y := ⟨x, hbody⟩
  obtain rfl := (Text.append_singleton_isPrefix_iff hv ho).mp hpre
  refine ⟨rfl, ?_⟩
  simpa using hbody

/-- **One rewrite keeps exactly the settled lines.** -/
theorem setQuotedAttr_eq_self_iff (hv : quote ∉ value) :
    setQuotedAttr line key value = line ↔ Settled key value line := by
  refine setQuotedAttr_induction (motive := fun line out => out = line ↔ Settled key value line)
    key value ?absent ?unclosed ?valued ?bare line
  case absent => exact fun line hnot => iff_of_true rfl (.absent hnot)
  case unclosed => exact fun pre rest hf hq => iff_of_true rfl (.unclosed hf hq)
  case valued =>
    intro pre old rest hf hold ih
    constructor
    · intro h
      obtain ⟨rfl, hrest⟩ := assigned_append_inj hv hold (List.append_cancel_left h)
      exact .set hf (ih.mp hrest)
    · intro h
      rcases h.behind hf with ⟨body, hbody, hq⟩ | ⟨rest', hset, hrest⟩
      · -- the old value is closed
        have hclosed : old ++ quote :: rest = body := by simpa [assigned, quoted] using hbody
        exact absurd (hclosed ▸ List.mem_append_right _ List.mem_cons_self) hq
      · obtain ⟨rfl, rfl⟩ := assigned_append_inj hold hv hset
        rw [ih.mpr hrest]
  case bare =>
    intro pre tail hf hnot ih
    have hassigned : ∀ x, [equals, quote] <+: assigned value ++ x := fun x =>
      ⟨value ++ quote :: x, by simp [assigned, quoted]⟩
    constructor
    · intro h
      exact absurd (List.append_cancel_left h ▸ hassigned _) hnot
    · intro h
      rcases h.behind hf with ⟨body, rfl, -⟩ | ⟨rest', rfl, -⟩
      · exact absurd ⟨body, rfl⟩ hnot
      · exact absurd (hassigned _) hnot

/-! ### Two rewrites -/

/-- Where a rewrite first changes a line, it does so behind its key. -/
theorem exists_first_change (hv : quote ∉ value) (h : setQuotedAttr line key value ≠ line) :
    ∃ pre tail rest, line = pre ++ quoted key ++ tail ∧
      setQuotedAttr line key value = pre ++ quoted key ++ (assigned value ++ rest) ∧
      ¬ assigned value <+: tail := by
  refine setQuotedAttr_induction (motive := fun line out => out ≠ line →
    ∃ pre tail rest, line = pre ++ quoted key ++ tail ∧
      out = pre ++ quoted key ++ (assigned value ++ rest) ∧ ¬ assigned value <+: tail)
    key value ?absent ?unclosed ?valued ?bare line h
  case absent => exact fun line _ hne => absurd rfl hne
  case unclosed => exact fun pre rest _ _ hne => absurd rfl hne
  case valued =>
    intro pre old rest _ hold ih hne
    by_cases heq : old = value
    · subst heq
      -- the change is further behind
      obtain ⟨pre', tail', rest', hline, hout, hnot⟩ := ih fun hrest => hne (by rw [hrest])
      refine ⟨pre ++ quoted key ++ assigned old ++ pre', tail', rest', ?_, ?_, hnot⟩
      · rw [hline]
        simp only [List.append_assoc]
      · rw [hout]
        simp only [List.append_assoc]
    · refine ⟨pre, _, _, rfl, rfl, ?_⟩
      rintro ⟨x, hx⟩
      exact heq (assigned_append_inj hold hv hx.symm).1
  case bare =>
    intro pre tail _ hnot _ _
    refine ⟨pre, tail, _, rfl, rfl, fun hset => hnot (List.IsPrefix.trans ?_ hset)⟩
    exact ⟨value ++ [quote], by simp [assigned, quoted]⟩

/-- A key with a part of its new value behind it never ends like the other key. -/
def Apart (key value key' : Bytes) : Prop :=
  ∀ z ∈ (assigned value).inits, z ≠ assigned value →
    ¬ quoted key' <:+ quoted key ++ z ∧ ¬ quoted key ++ z <:+ quoted key'

instance (key value key' : Bytes) : Decidable (Apart key value key') :=
  inferInstanceAs (Decidable (∀ z ∈ _, _))

/-- Two texts that differ first behind `key` do not differ first behind `key'`, if that is not
in front of it. -/
theorem Apart.ne {key' pre' x x' : Bytes} (hapart : Apart key value key') (z : Bytes)
    (hends : pre ++ quoted key ++ z = pre' ++ quoted key') (hset : assigned value ++ rest = z ++ x)
    (hnot : ¬ assigned value <+: z ++ x') : False := by
  -- the new value is longer than `z`, so `z` is a part of it
  have hpre : z <+: assigned value := by
    refine List.prefix_of_prefix_length_le ⟨x, hset.symm⟩ (List.prefix_append _ _) ?_
    by_contra hlt
    rw [Nat.not_le] at hlt
    have hall : assigned value <+: z := List.prefix_of_prefix_length_le
      (List.prefix_append _ rest) ⟨x, hset.symm⟩ hlt.le
    exact hnot (hall.trans (List.prefix_append _ _))
  have hne : z ≠ assigned value := by
    rintro rfl
    exact hnot (List.prefix_append _ _)
  obtain ⟨hleft, hright⟩ := hapart z ((List.mem_inits _ _).mpr hpre) hne
  have hsuffix : quoted key ++ z <:+ pre' ++ quoted key' :=
    ⟨pre, by rw [← hends, List.append_assoc]⟩
  rcases List.suffix_or_suffix_of_suffix hsuffix (List.suffix_append pre' (quoted key')) with h | h
  · exact hright h
  · exact hleft h

/-- **Two rewrites keep exactly the lines that are settled for both.** -/
theorem setQuotedAttr_setQuotedAttr_eq_self_iff {key' value' : Bytes} (hv : quote ∉ value)
    (hv' : quote ∉ value') (hapart : Apart key value key') (hapart' : Apart key' value' key) :
    setQuotedAttr (setQuotedAttr line key value) key' value' = line ↔
      Settled key value line ∧ Settled key' value' line := by
  constructor
  · intro h
    have hfirst : setQuotedAttr line key value = line := by
      by_contra hne
      obtain ⟨pre, tail, rest, hline, hmid, hnot⟩ := exists_first_change hv hne
      obtain ⟨pre', tail', rest', hmid', hline', hnot'⟩ :=
        exists_first_change hv' (h.trans_ne (Ne.symm hne))
      rw [hmid] at hmid'
      rw [h, hline] at hline'
      -- the second rewrite would have to write back what the first one took
      rcases List.prefix_or_prefix_of_prefix ⟨tail, rfl⟩ ⟨_, hline'.symm⟩
        with ⟨z, hz⟩ | ⟨z, hz⟩
      · rw [← hz, List.append_assoc _ z] at hmid' hline'
        rw [List.append_cancel_left hline'] at hnot
        exact hapart.ne z hz (List.append_cancel_left hmid') hnot
      · rw [← hz, List.append_assoc _ z] at hmid' hline'
        rw [← List.append_cancel_left hmid'] at hnot'
        exact hapart'.ne z hz (List.append_cancel_left hline').symm hnot'
    rw [hfirst] at h
    exact ⟨(setQuotedAttr_eq_self_iff hv).mp hfirst, (setQuotedAttr_eq_self_iff hv').mp h⟩
  · rintro ⟨h, h'⟩
    rw [(setQuotedAttr_eq_self_iff hv).mpr h, (setQuotedAttr_eq_self_iff hv').mpr h']

/-! ### Constants and metadata -/

/-- The line defines a global (`@`) or a metadata node (`!`). -/
def DefinesData (line : Bytes) : Prop := line.head? = some 64 ∨ line.head? = some 33

/-- Both attributes are settled in the line. -/
def TargetSettled (line : Bytes) : Prop :=
  Settled (bytes "target-cpu") cpu line ∧ Settled (bytes "target-features") [] line

theorem retargetLine_eq_self_iff (h : DefinesData line) :
    retargetLine line = line ↔ TargetSettled line := by
  -- a definition sets neither the layout nor the triple
  have hstart : ∀ {p : Bytes}, p.head? = some 116 → ¬ p <+: line := by
    rintro p hp ⟨rest, rfl⟩
    rw [DefinesData, List.head?_append, hp, Option.some_or] at h
    exact absurd h (by decide)
  rw [retargetLine, if_neg (hstart rfl), if_neg (hstart rfl)]
  exact setQuotedAttr_setQuotedAttr_eq_self_iff (by decide) (by decide) (by decide) (by decide)

/-- **Constants and metadata.** A line that defines a global or a metadata node comes out byte
for byte if and only if it is settled for both attributes. -/
theorem retargetText_data (src : Bytes) (i : ℕ) (line : Bytes)
    (hline : line ∈ (src.splitOn newline)[i]?) (hdata : DefinesData line) :
    ((retargetText src).splitOn newline)[i]? = some line ↔ TargetSettled line := by
  rw [getElem?_splitOn_retargetText, Option.mem_def.mp hline, Option.map_some, Option.some_inj]
  exact retargetLine_eq_self_iff hdata

/-- A string constant that spells a key, but ends with a zero byte. -/
theorem retargetText_data_terminated :
    ((retargetText (bytes "\n@key = constant [11 x i8] c\"target-cpu\\00\"\n")).splitOn newline)[1]?
      = some (bytes "@key = constant [11 x i8] c\"target-cpu\\00\"") :=
  (retargetText_data _ 1 _ rfl (.inl rfl)).mpr ⟨.absent (by decide), .absent (by decide)⟩

/-- A string constant that spells a key without a zero byte. -/
def bareConstant : Bytes := bytes "@key = constant [10 x i8] c\"target-cpu\""

/-- It gets an attribute value behind it. -/
theorem retargetText_bareConstant :
    DefinesData bareConstant ∧ retargetText bareConstant ≠ bareConstant ∧
      retargetText bareConstant
        = bytes "@key = constant [10 x i8] c\"target-cpu\"=\"cortex-m0plus\"" := by
  have hbare : setQuotedAttr
      (bytes "@key = constant [10 x i8] c" ++ quoted (bytes "target-cpu") ++ [])
      (bytes "target-cpu") cpu = _ := setQuotedAttr_bare (by decide) (by decide)
  have hnil : setQuotedAttr [] (bytes "target-cpu") cpu = [] :=
    setQuotedAttr_of_not_infix (by decide)
  have hline : bytes "@key = constant [10 x i8] c" ++ quoted (bytes "target-cpu")
      = bareConstant := by decide
  rw [hnil, List.append_nil, List.append_nil, hline] at hbare
  have hout : retargetText bareConstant
      = bytes "@key = constant [10 x i8] c\"target-cpu\"=\"cortex-m0plus\"" := by
    rw [retargetText_line (by decide), retargetLine, if_neg (by decide), if_neg (by decide), hbare,
      setQuotedAttr_of_not_infix (by decide)]
    decide
  refine ⟨.inl rfl, ?_, hout⟩
  rw [hout]
  decide

end Retarget
