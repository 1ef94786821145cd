import Mathlib.Data.List.Nodup

/-!
# Sequences with a restart

A sender repeats a fixed sequence of words, and a receiver that takes them one by one may be any
number of words behind. Either side can lose its place, so the sequence starts with a marker that
brings the receiver back to its start wherever it is.

`Takes` is what one word does to the receiver. `Follows` says of the words under way that each of
them restarts the sequence or goes on with it from where the one before has left it, and how far
they lead. It survives what both sides do (`Follows.snoc_marker`, `Follows.snoc`, `Follows.takes`),
whatever the distance between them. So the receiver never takes a word for another one of the
sequence, and it takes the last word exactly when it completes the sequence (`Latest.complete`).
-/

namespace Resync

/-- How far a receiver is: waiting for the marker, or the words taken since the last one. -/
abbrev Progress (α : Type) := Option (List α)

section

variable {α : Type} (marker : α) (words : List α) (may : List α → α → Prop)

/-- What the next word makes of the progress. A receiver that does not know the sequence may take
other words than those of the sequence for it (`may`); any other word makes it wait for the
marker. -/
inductive Takes : Progress α → α → Progress α → Prop
  | restart {q : Progress α} : Takes q marker (some [])
  | take {ts : List α} {w : α} (hw : w ≠ marker) (h : may ts w) :
      Takes (some ts) w (some (ts ++ [w]))
  | wait {q : Progress α} {w : α} (hw : w ≠ marker)
      (h : ∀ ts, q = some ts → ¬ ts ++ [w] <+: words) : Takes q w none

/-- The words `ws` lead from progress `q` to `q'`, each one the marker or the next word of the
sequence. -/
inductive Follows : Progress α → List α → Progress α → Prop
  | nil {q : Progress α} : Follows q [] q
  | restart {q q' : Progress α} {ws : List α} (h : Follows (some []) ws q') :
      Follows q (marker :: ws) q'
  | next {ts ws : List α} {w : α} {q' : Progress α} (hw : ts ++ [w] <+: words)
      (h : Follows (some (ts ++ [w])) ws q') : Follows (some ts) (w :: ws) q'

/-- `w` is the word that has led to progress `q`. -/
def Latest (q : Progress α) (w : α) : Prop :=
  q = some [] ∧ w = marker ∨ ∃ ts, q = some (ts ++ [w]) ∧ ts ++ [w] <+: words

end

section

variable {α : Type} {marker w : α} {words ws vs ts : List α} {may : List α → α → Prop}
  {q q' q'' : Progress α}

theorem Follows.append (h : Follows marker words q ws q') (h' : Follows marker words q' vs q'') :
    Follows marker words q (ws ++ vs) q'' := by
  induction h with
  | nil => exact h'
  | restart _ ih => exact .restart (ih h')
  | next hw _ ih => exact .next hw (ih h')

/-- The sender starts again. -/
theorem Follows.snoc_marker (h : Follows marker words q ws q') :
    Follows marker words q (ws ++ [marker]) (some []) :=
  h.append (.restart .nil)

/-- The sender goes on. -/
theorem Follows.snoc (h : Follows marker words q ws (some ts)) (hw : ts ++ [w] <+: words) :
    Follows marker words q (ws ++ [w]) (some (ts ++ [w])) :=
  h.append (.next hw .nil)

theorem Follows.of_markers (h : ∀ w ∈ ws, w = marker) (q : Progress α) :
    ∃ q', Follows marker words q ws q' := by
  induction ws generalizing q with
  | nil => exact ⟨q, .nil⟩
  | cons w ws ih =>
    obtain ⟨rfl, h⟩ := List.forall_mem_cons.mp h
    obtain ⟨q', hf⟩ := ih h (some [])
    exact ⟨q', .restart hf⟩

/-- The receiver keeps up: where the words under way follow the sequence, it takes each of them
for what it is. -/
theorem Follows.takes (hm : marker ∉ words) (h : Follows marker words q (w :: ws) q')
    (ht : Takes marker words may q w q'') :
    Latest marker words q'' w ∧ Follows marker words q'' ws q' := by
  cases h with
  | restart h =>
    cases ht with
    | restart => exact ⟨.inl ⟨rfl, rfl⟩, h⟩
    | take hne | wait hne => exact absurd rfl hne
  | next hw h =>
    cases ht with
    | restart => exact absurd (hw.subset (List.mem_append_right _ (List.mem_singleton_self _))) hm
    | take => exact ⟨.inr ⟨_, rfl, hw⟩, h⟩
    | wait _ hno => exact absurd hw (hno _ rfl)

/-- The last word of a sequence without repetitions completes it. -/
theorem Latest.complete (hd : (ws ++ [w]).Nodup) (hw : w ≠ marker)
    (h : Latest marker (ws ++ [w]) q w) : q = some (ws ++ [w]) := by
  rcases h with ⟨-, rfl⟩ | ⟨ts, rfl, hts⟩
  · exact absurd rfl hw
  · rcases List.prefix_concat_iff.mp hts with heq | hlt
    · rw [heq]
    · have hmem : w ∈ ws := hlt.subset (List.mem_append_right _ (List.mem_singleton_self _))
      exact absurd hmem (List.disjoint_singleton.mp (List.disjoint_of_nodup_append hd))

/-- A receiver that has taken as many words as the sequence has, has taken the sequence. -/
theorem Latest.eq_of_length (h : Latest marker words (some ts) w)
    (hl : ts.length = words.length) (hne : words ≠ []) : ts = words := by
  rcases h with ⟨h, -⟩ | ⟨vs, h, hvs⟩
  · cases h
    exact absurd (List.length_eq_zero_iff.mp hl.symm) hne
  · cases h
    exact hvs.eq_of_length hl

end

end Resync
