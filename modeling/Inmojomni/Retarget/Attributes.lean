import Inmojomni.Retarget.Lines

/-!
# The retarget pass rewrites attributes exactly

A line is read here as double-quoted strings separated by quote-free text, and `rewrite` says
what is to happen to it: the string after a key and `=` is replaced, and a bare key gets `=`
and a string. The pass itself knows no strings. It looks for the bytes of a quoted key, and
these could also be found between the closing quote of one string and the opening quote of the
next. `WellFormed` excludes that, and then a search finds the first string that is the key
(`find_render_self`), so the loop takes the strings one by one (`setQuotedAttrLoop_render`).

The second pass runs over the output of the first: rewriting keeps a line well-formed, and the
two rewrites together are one (`rewrite_rewrite`).
-/

namespace Retarget

/-! ### Lines as strings and text -/

/-- Bytes without a double quote. -/
abbrev Piece := { b : Bytes // quote ∉ b }

/-- A double-quoted string, and the text behind it. -/
abbrev Item := Piece × Piece

/-- The line with text `head` before its strings. -/
def render : Piece → List Item → Bytes
  | head, [] => head.1
  | head, (s, t) :: items => head.1 ++ quoted s.1 ++ render t items

/-- A single equals sign. -/
def eqText : Piece := ⟨[equals], by decide⟩

/-- Set the value of each string `s` with a value `values s`. The old value is the string
behind `=`, if there is one. -/
def rewrite (values : Piece → Option Piece) : List Item → List Item
  | [] => []
  | (s, t) :: items =>
    match values s with
    | none => (s, t) :: rewrite values items
    | some v => (s, eqText) ::
      match items with
      | [] => [(v, t)]
      | (w, t') :: rest =>
        if t = eqText then (v, t') :: rewrite values rest
        else (v, t) :: rewrite values ((w, t') :: rest)

/-- The strings that are keys occur as keys only: not right behind `=`, and with a value or
with something that does not start with `=` behind them. And the text between two strings is
never a key. -/
def WellFormed (isKey : Piece → Prop) : Piece → List Item → Prop
  | _, [] => True
  | before, (s, t) :: items =>
    (items ≠ [] → ¬ isKey t) ∧
    (isKey s → before.1.getLast? ≠ some equals ∧
      (t = eqText ∧ items ≠ [] ∨ t.1.head? ≠ some equals)) ∧
    WellFormed isKey t items

instance decidableWellFormed (isKey : Piece → Prop) [DecidablePred isKey] :
    ∀ head items, Decidable (WellFormed isKey head items)
  | _, [] => .isTrue trivial
  | before, (s, t) :: items =>
    have := decidableWellFormed isKey t items
    inferInstanceAs (Decidable ((items ≠ [] → ¬ isKey t) ∧
      (isKey s → before.1.getLast? ≠ some equals ∧
        (t = eqText ∧ items ≠ [] ∨ t.1.head? ≠ some equals)) ∧ WellFormed isKey t items))

section Rewrite

variable {isKey isKey' : Piece → Prop} {values values' : Piece → Option Piece} {head s t : Piece}
  {items : List Item}

theorem rewrite_none (h : values s = none) :
    rewrite values ((s, t) :: items) = (s, t) :: rewrite values items := by
  rw [rewrite, h]

/-- A key with a value. -/
theorem rewrite_valued {v w t' : Piece} (h : values s = some v) :
    rewrite values ((s, eqText) :: (w, t') :: items)
      = (s, eqText) :: (v, t') :: rewrite values items := by
  rw [rewrite, h]
  simp

/-- A bare key. -/
theorem rewrite_bare {v : Piece} (h : values s = some v) (ht : t = eqText → items = []) :
    rewrite values ((s, t) :: items) = (s, eqText) :: (v, t) :: rewrite values items := by
  rw [rewrite, h]
  cases items with
  | nil => rfl
  | cons i rest =>
    simp only
    rw [if_neg fun heq => by cases ht heq]

theorem rewrite_eq_nil_iff : rewrite values items = [] ↔ items = [] := by
  cases items with
  | nil => simp [rewrite]
  | cons i rest =>
    rw [rewrite]
    split <;> simp

/-- Induction along a rewrite: each string has no value, a value to replace, or a value to
insert. -/
theorem rewrite_induction {motive : List Item → Prop} (values : Piece → Option Piece)
    (nil : motive [])
    (none : ∀ s t items, values s = none → motive items → motive ((s, t) :: items))
    (valued : ∀ s v w t' items, values s = some v → motive items →
      motive ((s, eqText) :: (w, t') :: items))
    (bare : ∀ s v t items, values s = some v → (t = eqText → items = []) → motive items →
      motive ((s, t) :: items)) : ∀ items, motive items
  | [] => nil
  | (s, t) :: items => by
    have ih := rewrite_induction values nil none valued bare items
    cases hs : values s with
    | none => exact none s t items hs ih
    | some v =>
      by_cases ht : t = eqText → items = []
      · exact bare s v t items hs ht ih
      · rw [Classical.not_imp] at ht
        obtain ⟨rfl, hne⟩ := ht
        match items, hne with
        | (w, t') :: rest, _ =>
          exact valued s v w t' rest hs (rewrite_induction values nil none valued bare rest)

/-- Rewriting once more changes nothing: every key now has its value. -/
theorem rewrite_idem : rewrite values (rewrite values items) = rewrite values items := by
  induction items using rewrite_induction values with
  | nil => rfl
  | none s t items hs ih => rw [rewrite_none hs, rewrite_none hs, ih]
  | valued s v w t' items hs ih => rw [rewrite_valued hs, rewrite_valued hs, ih]
  | bare s v t items hs ht ih => rw [rewrite_bare hs ht, rewrite_valued hs, ih]

theorem WellFormed.mono (h : WellFormed isKey head items) (hle : ∀ p, isKey' p → isKey p) :
    WellFormed isKey' head items := by
  induction items generalizing head with
  | nil => trivial
  | cons i items ih =>
    obtain ⟨hsep, hkey, hrest⟩ := h
    exact ⟨fun hne ht => hsep hne (hle _ ht), fun hs => hkey (hle _ hs), ih hrest⟩

/-- Rewriting keeps a line well-formed, since the new values are no keys. -/
theorem WellFormed.rewrite (h : WellFormed isKey head items) (heq : ¬ isKey eqText)
    (hvalues : ∀ p v, values p = some v → ¬ isKey v) :
    WellFormed isKey head (rewrite values items) := by
  induction items using rewrite_induction values generalizing head with
  | nil => exact h
  | none s t items hs ih =>
    obtain ⟨hsep, hkey, hrest⟩ := h
    rw [rewrite_none hs]
    simp only [WellFormed, ne_eq, rewrite_eq_nil_iff]
    exact ⟨hsep, hkey, ih hrest⟩
  | valued s v w t' items hs ih =>
    obtain ⟨-, hkey, hsep, -, hrest⟩ := h
    rw [rewrite_valued hs]
    simp only [WellFormed, ne_eq, rewrite_eq_nil_iff]
    exact ⟨fun _ => heq, fun hk => ⟨(hkey hk).1, .inl ⟨trivial, List.cons_ne_nil _ _⟩⟩, hsep,
      fun hk => absurd hk (hvalues s v hs), ih hrest⟩
  | bare s v t items hs ht ih =>
    obtain ⟨hsep, hkey, hrest⟩ := h
    rw [rewrite_bare hs ht]
    simp only [WellFormed, ne_eq, rewrite_eq_nil_iff]
    exact ⟨fun _ => heq, fun hk => ⟨(hkey hk).1, .inl ⟨trivial, List.cons_ne_nil _ _⟩⟩, hsep,
      fun hk => absurd hk (hvalues s v hs), ih hrest⟩

/-- Two rewrites of different keys are one, in a line in which no key is a value. -/
theorem rewrite_rewrite (h : WellFormed isKey head items)
    (hkey : ∀ p v, values p = some v → isKey p ∧ values' p = none ∧ values' v = none) :
    rewrite values' (rewrite values items)
      = rewrite (fun p => (values p).or (values' p)) items := by
  induction items using rewrite_induction (fun p => (values p).or (values' p))
    generalizing head with
  | nil => rfl
  | none s t items hs ih =>
    obtain ⟨hs₁, hs₂⟩ := Option.or_eq_none_iff.mp hs
    rw [rewrite_none hs₁, rewrite_none hs₂, rewrite_none hs, ih h.2.2]
  | valued s v w t' items hs ih =>
    obtain ⟨-, -, -, hwkey, hrest⟩ := h
    have hor : rewrite (fun p => (values p).or (values' p)) ((s, eqText) :: (w, t') :: items)
        = (s, eqText) :: (v, t') :: rewrite _ items := rewrite_valued hs
    rw [hor]
    rcases Option.or_eq_some_iff.mp hs with hs₁ | ⟨hs₁, hs₂⟩
    · obtain ⟨-, hs₂, hv⟩ := hkey s v hs₁
      rw [rewrite_valued hs₁, rewrite_none hs₂, rewrite_none hv, ih hrest]
    · -- the value behind `=` is no key of the first rewrite, which leaves it for the second
      have hw : values w = none := by
        rcases hw : values w with _ | x
        · rfl
        · exact absurd rfl (hwkey (hkey w x hw).1).1
      rw [rewrite_none hs₁, rewrite_none hw, rewrite_valued hs₂, ih hrest]
  | bare s v t items hs ht ih =>
    have hor : rewrite (fun p => (values p).or (values' p)) ((s, t) :: items)
        = (s, eqText) :: (v, t) :: rewrite _ items := rewrite_bare hs ht
    rw [hor]
    rcases Option.or_eq_some_iff.mp hs with hs₁ | ⟨hs₁, hs₂⟩
    · obtain ⟨-, hs₂, hv⟩ := hkey s v hs₁
      rw [rewrite_bare hs₁ ht, rewrite_none hs₂, rewrite_none hv, ih h.2.2]
    · rw [rewrite_none hs₁, rewrite_bare hs₂ fun heq => rewrite_eq_nil_iff.mpr (ht heq), ih h.2.2]

end Rewrite

/-! ### One pass -/

section Pass

variable {key value head s t : Piece} {items : List Item} {out p rest : Bytes} {idx : ℕ}

theorem quote_not_mem_append (h : quote ∉ p) : Text.find (quoted key.1) (p ++ rest)
    = (Text.find (quoted key.1) rest).map (· + p.length) := Text.find_append h

/-- A quoted key begins at a quote exactly if it is the string between this quote and the next. -/
theorem quoted_isPrefix_iff : quoted key.1 <+: quote :: (s.1 ++ quote :: rest) ↔ key = s := by
  rw [quoted, List.cons_prefix_cons, Subtype.ext_iff]
  exact (and_iff_right rfl).trans (Text.append_singleton_isPrefix_iff key.2 s.2)

/-- The search finds the first string if that is the key. -/
theorem find_render_self : Text.find (quoted key.1) (render head ((key, t) :: items))
    = some head.1.length := by
  have hpre : quoted key.1 <+: quoted key.1 ++ render t items := List.prefix_append _ _
  rw [render, List.append_assoc, quote_not_mem_append head.2, Text.find_of_isPrefix hpre]
  simp

/-- Otherwise it goes on behind the first string, over its quotes and the text around it. -/
theorem find_render_ne (hs : s ≠ key) (ht : items ≠ [] → t ≠ key) :
    Text.find (quoted key.1) (head.1 ++ quoted s.1 ++ render t items)
      = (Text.find (quoted key.1) (render t items)).map (· + (head.1 ++ quoted s.1).length) := by
  have hopen : ¬ quoted key.1 <+: quote :: (s.1 ++ quote :: render t items) := fun h =>
    hs (quoted_isPrefix_iff.mp h).symm
  -- the closing quote is no opening one: what is behind it is the text `t`
  have hclose : ¬ quoted key.1 <+: quote :: render t items := by
    cases items with
    | nil =>
      rw [quoted, List.cons_prefix_cons]
      exact fun h => Text.not_append_singleton_isPrefix t.2 h.2
    | cons i rest =>
      obtain ⟨s', t'⟩ := i
      have hrender : render t ((s', t') :: rest)
          = t.1 ++ quote :: (s'.1 ++ [quote] ++ render t' rest) := by
        simp [render, quoted]
      rw [hrender]
      exact fun h => ht (List.cons_ne_nil _ _) (quoted_isPrefix_iff.mp h).symm
  have hsplit : head.1 ++ quoted s.1 ++ render t items
      = head.1 ++ quote :: (s.1 ++ quote :: render t items) := by
    simp [quoted]
  rw [hsplit, quote_not_mem_append head.2, Text.find_cons_of_not_isPrefix hopen,
    quote_not_mem_append s.2, Text.find_cons_of_not_isPrefix hclose]
  simp only [Option.map_map]
  congr 1
  funext n
  simp only [Function.comp_apply, quoted, List.length_append, List.length_cons, List.length_nil]
  omega

/-- The loop passes over a piece if the search does. -/
theorem setQuotedAttrLoop_append
    (h : Text.find (quoted key.1) (p ++ rest)
      = (Text.find (quoted key.1) rest).map (· + p.length)) :
    setQuotedAttrLoop key.1 value.1 out (p ++ rest)
      = setQuotedAttrLoop key.1 value.1 (out ++ p) rest := by
  cases hf : Text.find (quoted key.1) rest with
  | none =>
    rw [hf] at h
    rw [setQuotedAttrLoop_none h, setQuotedAttrLoop_none hf, List.append_assoc]
  | some idx =>
    rw [hf, Option.map_some] at h
    -- everything the loop computes is shifted by the length of the piece
    have hset : out ++ setAt key.1 value.1 (p ++ rest) (idx + p.length)
        = out ++ p ++ setAt key.1 value.1 rest idx := by
      rw [setAt, setAt, Nat.add_comm idx, List.take_length_add_append]
      simp only [List.append_assoc]
    have hvalued : ValuedAt key.1 (p ++ rest) (idx + p.length) ↔ ValuedAt key.1 rest idx := by
      have hget : ∀ i, (p ++ rest)[idx + p.length + i]? = rest[idx + i]? := fun i => by
        rw [List.getElem?_append_right (by omega)]
        congr 1
        omega
      rw [ValuedAt, ValuedAt, Nat.add_assoc (idx + p.length) _ 1, hget, hget, Nat.add_assoc idx]
    have hdrop : ∀ n, (p ++ rest).drop (n + p.length) = rest.drop n := fun n => by
      rw [Nat.add_comm, List.drop_length_add_append]
    by_cases hv : ValuedAt key.1 rest idx
    · have hclose : Text.findFrom [quote] (p ++ rest) (idx + p.length + (quoted key.1).length + 2)
          = (Text.findFrom [quote] rest (idx + (quoted key.1).length + 2)).map (· + p.length) := by
        rw [show idx + p.length + (quoted key.1).length + 2
          = idx + (quoted key.1).length + 2 + p.length by omega, Text.findFrom, Text.findFrom, hdrop,
          Option.map_map]
        congr 1
        funext n
        simp only [Function.comp_apply]
        omega
      cases hc : Text.findFrom [quote] rest (idx + (quoted key.1).length + 2) with
      | none =>
        rw [hc, Option.map_none] at hclose
        rw [setQuotedAttrLoop_unclosed h (hvalued.mpr hv) hclose,
          setQuotedAttrLoop_unclosed hf hv hc, List.append_assoc]
      | some close =>
        rw [hc, Option.map_some] at hclose
        rw [setQuotedAttrLoop_valued h (hvalued.mpr hv) hclose, setQuotedAttrLoop_valued hf hv hc,
          hset, Nat.add_right_comm, hdrop]
    · rw [setQuotedAttrLoop_bare h (mt hvalued.mp hv), setQuotedAttrLoop_bare hf hv, hset,
        Nat.add_right_comm, hdrop]

/-- The line behind the first string. -/
theorem drop_render : (render head ((s, t) :: items)).drop (head.1.length + (quoted s.1).length)
    = render t items := by
  rw [render, ← List.length_append, List.drop_left]

theorem setAt_render :
    setAt key.1 value.1 (render head ((key, t) :: items)) head.1.length
      = head.1 ++ quoted key.1 ++ equals :: quoted value.1 := by
  rw [setAt, render, List.append_assoc head.1, List.take_left]

/-- A value follows exactly if an equals sign and a quote are behind the first string. -/
theorem valuedAt_render : ValuedAt key.1 (render head ((key, t) :: items)) head.1.length ↔
    (render t items)[0]? = some equals ∧ (render t items)[1]? = some quote := by
  have hget : ∀ i, (render head ((key, t) :: items))[head.1.length + (quoted key.1).length + i]?
      = (render t items)[i]? := fun i => by
    rw [← List.getElem?_drop, drop_render]
  have hget₀ := hget 0
  rw [Nat.add_zero] at hget₀
  rw [ValuedAt, hget₀, hget 1]

/-- Text that does not start with `=` is no start of a value. -/
theorem not_valuedAt_render (ht : t.1.head? ≠ some equals) :
    ¬ ValuedAt key.1 (render head ((key, t) :: items)) head.1.length := by
  rw [valuedAt_render]
  rintro ⟨hequals, -⟩
  rw [← List.head?_eq_getElem?] at hequals
  cases items with
  | nil => exact ht hequals
  | cons i rest =>
    obtain ⟨s, t'⟩ := i
    rw [render, List.append_assoc, List.head?_append] at hequals
    cases hhead : t.1.head? with
    | none =>
      rw [hhead] at hequals
      exact absurd hequals (by simp [quoted]; decide)
    | some x =>
      rw [hhead] at hequals
      exact ht (hhead.trans hequals)

/-- The old value ends at the next quote. -/
theorem close_render {w : Piece} :
    Text.findFrom [quote] (render head ((key, eqText) :: (w, t) :: items))
      (head.1.length + (quoted key.1).length + 2)
      = some (w.1.length + (head.1.length + (quoted key.1).length + 2)) := by
  have hrest : (render eqText ((w, t) :: items)).drop 2 = w.1 ++ quote :: render t items := by
    simp [render, eqText, quoted]
  rw [Text.findFrom, ← List.drop_drop, drop_render, hrest, Text.find_singleton w.2, Option.map_some]

/-- **One pass.** It rewrites the strings that are the key, and nothing else. -/
theorem setQuotedAttrLoop_render (h : WellFormed (· = key) head items) :
    setQuotedAttrLoop key.1 value.1 out (render head items)
      = out ++ render head (rewrite (fun p => if p = key then some value else none) items) := by
  induction items using rewrite_induction (fun p => if p = key then some value else none)
    generalizing head out with
  | nil =>
    have hnone : Text.find (quoted key.1) (head.1 ++ []) = none := by
      rw [quote_not_mem_append head.2]
      rfl
    rw [List.append_nil] at hnone
    exact setQuotedAttrLoop_none hnone
  | none s t items hs ih =>
    have hne : s ≠ key := fun heq => by simp [heq] at hs
    rw [rewrite_none hs, render, setQuotedAttrLoop_append (find_render_ne hne h.1), ih h.2.2, render]
    simp only [List.append_assoc]
  | valued s v w t' items hs ih =>
    obtain ⟨rfl, rfl⟩ : s = key ∧ value = v := by simpa using hs
    obtain ⟨-, -, -, -, hrest⟩ := h
    have hv : ValuedAt s.1 (render head ((s, eqText) :: (w, t') :: items)) head.1.length :=
      valuedAt_render.mpr ⟨rfl, rfl⟩
    -- behind the closing quote of the old value
    have hdrop : (render head ((s, eqText) :: (w, t') :: items)).drop
        (w.1.length + (head.1.length + (quoted s.1).length + 2) + 1) = render t' items := by
      have hlen : w.1.length + (head.1.length + (quoted s.1).length + 2) + 1
          = head.1.length + (quoted s.1).length + (eqText.1.length + (quoted w.1).length) := by
        simp [eqText, quoted]
        omega
      rw [hlen, ← List.drop_drop, drop_render, drop_render]
    rw [rewrite_valued hs, setQuotedAttrLoop_valued find_render_self hv close_render, setAt_render,
      hdrop, ih hrest]
    simp [render, eqText]
  | bare s v t items hs ht ih =>
    obtain ⟨rfl, rfl⟩ : s = key ∧ value = v := by simpa using hs
    obtain ⟨-, hkey, hrest⟩ := h
    have hhead : t.1.head? ≠ some equals :=
      (hkey rfl).2.resolve_left fun hval => hval.2 (ht hval.1)
    rw [rewrite_bare hs ht, setQuotedAttrLoop_bare find_render_self (not_valuedAt_render hhead),
      setAt_render, drop_render, ih hrest]
    simp [render, eqText]

end Pass

/-! ### Both passes -/

def targetCpu : Piece := ⟨bytes "target-cpu", by decide⟩

def targetFeatures : Piece := ⟨bytes "target-features", by decide⟩

/-- The strings that are attribute keys. -/
def IsKey (p : Piece) : Prop := p = targetCpu ∨ p = targetFeatures

instance : DecidablePred IsKey := fun _ => inferInstanceAs (Decidable (_ ∨ _))

def cpuPiece : Piece := ⟨cpu, by decide⟩

def noFeatures : Piece := ⟨[], by decide⟩

/-- The new values: the MCU's CPU, and no features. -/
def newValue (p : Piece) : Option Piece :=
  if p = targetCpu then some cpuPiece
  else if p = targetFeatures then some noFeatures
  else none

section Line

variable {head : Piece} {items : List Item}

theorem not_isKey_newValue : ∀ p v, newValue p = some v → ¬ IsKey v := by
  intro p v h
  rw [newValue] at h
  split at h
  · obtain rfl := Option.some.inj h
    decide
  split at h
  · obtain rfl := Option.some.inj h
    decide
  · cases h

/-- The start of a line is in the text before its strings. -/
theorem isPrefix_render_iff {p : Bytes} (hp : quote ∉ p) :
    p <+: render head items ↔ p <+: head.1 := by
  cases items with
  | nil => exact Iff.rfl
  | cons i items =>
    obtain ⟨s, t⟩ := i
    rw [render, List.append_assoc]
    exact Text.isPrefix_append_cons_iff hp

/-- A line whose strings are rewritten still names neither the triple nor the datalayout. -/
theorem retargetLine_render (h : WellFormed IsKey head items)
    (hlayout : ¬ bytes "target datalayout" <+: render head items)
    (htriple : ¬ bytes "target triple" <+: render head items) :
    retargetLine (render head items) = render head (rewrite newValue items) := by
  have hcpu : WellFormed (· = targetCpu) head items := h.mono fun _ hp => .inl hp
  -- the first pass leaves a line that is well-formed for the second
  have hfeatures : WellFormed (· = targetFeatures) head
      (rewrite (fun p => if p = targetCpu then some cpuPiece else none) items) := by
    refine (h.mono fun _ hp => .inr hp).rewrite (by decide) fun p v hv => ?_
    obtain ⟨-, hv⟩ := Option.ite_none_right_eq_some.mp hv
    obtain rfl := Option.some.inj hv
    decide
  have hboth : (fun p => (if p = targetCpu then some cpuPiece else none).or
      (if p = targetFeatures then some noFeatures else none)) = newValue := by
    funext p
    rw [newValue]
    split <;> simp
  rw [retargetLine, if_neg hlayout, if_neg htriple]
  change setQuotedAttrLoop targetFeatures.1 noFeatures.1 []
    (setQuotedAttrLoop targetCpu.1 cpuPiece.1 [] (render head items)) = _
  rw [setQuotedAttrLoop_render hcpu, List.nil_append, setQuotedAttrLoop_render hfeatures,
    List.nil_append, rewrite_rewrite h, hboth]
  intro p v hv
  obtain ⟨rfl, hv⟩ := Option.ite_none_right_eq_some.mp hv
  obtain rfl := Option.some.inj hv
  exact ⟨.inl rfl, by decide, by decide⟩

/-- **Attribute rewriting is exact.** On a well-formed line that does not set the triple or the
datalayout, the pass sets the value of every `"target-cpu"` and `"target-features"` key and
leaves everything else as it is, and a second run of it changes nothing. -/
theorem retargetText_render (h : WellFormed IsKey head items)
    (hnl : newline ∉ render head items) (hlayout : ¬ bytes "target datalayout" <+: render head items)
    (htriple : ¬ bytes "target triple" <+: render head items) :
    retargetText (render head items) = render head (rewrite newValue items) ∧
      retargetText (retargetText (render head items)) = retargetText (render head items) := by
  have honce : retargetText (render head items) = render head (rewrite newValue items) := by
    rw [retargetText_line hnl, retargetLine_render h hlayout htriple]
  have hnl' : newline ∉ render head (rewrite newValue items) := by
    rw [← retargetLine_render h hlayout htriple]
    exact newline_not_mem_retargetLine hnl
  -- the text before the first string is the same, so the line still sets neither
  have hstart : ∀ {p : Bytes}, quote ∉ p → ¬ p <+: render head items →
      ¬ p <+: render head (rewrite newValue items) := fun hp hnot => by
    rw [isPrefix_render_iff hp] at hnot ⊢
    exact hnot
  refine ⟨honce, ?_⟩
  rw [honce, retargetText_line hnl', retargetLine_render
    (h.rewrite (by decide) not_isKey_newValue) (hstart (by decide) hlayout)
    (hstart (by decide) htriple), rewrite_idem]

end Line

/-- A group with both keys, one with a value and one bare, and another attribute. -/
theorem retargetText_render_group :
    retargetText (bytes "#0 = \"target-cpu\"=\"rv32\" \"target-features\" \"probe\"=\"no\"")
      = bytes "#0 = \"target-cpu\"=\"cortex-m0plus\" \"target-features\"=\"\" \"probe\"=\"no\"" := by
  have h := @retargetText_render ⟨bytes "#0 = ", by decide⟩
    [(targetCpu, eqText), (⟨bytes "rv32", by decide⟩, ⟨bytes " ", by decide⟩),
      (targetFeatures, ⟨bytes " ", by decide⟩), (⟨bytes "probe", by decide⟩, eqText),
      (⟨bytes "no", by decide⟩, ⟨[], by decide⟩)] (by decide) (by decide) (by decide) (by decide)
  exact h.1

end Retarget
