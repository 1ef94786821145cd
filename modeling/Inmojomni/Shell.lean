import Inmojomni.Ascii
import Inmojomni.Effect.Outcome
import Inmojomni.Text

/-!
# Shell commands of the host tools

`std.subprocess.run` gives the standard output of a command, but not its exit status. So the host
tools let the shell print it behind the output, with a marker before it, and look for the last
marker: `sh` in `tools/build.mojo` and the `_sh` of `tools/boot2.mojo` and of `tools/hil.mojo`. A
command may print markers of its own, and the beginning of one at its end, but the digits behind
the marker of the shell leave no room for another (`isLast_marker`), so output and status are told
apart whatever is printed (`status_decoded`).
-/

open Effect

namespace Shell

/-- What the tools do outside themselves. -/
inductive Op
  | run (cmd : Bytes)
  | print (text : Bytes)

abbrev Op.Answer : Op → Type
  | .run _ => Bytes
  | .print _ => Unit

/-- An error is its message. -/
abbrev Tool (α : Type) := Script Op.Answer Bytes α

def run (cmd : Bytes) : Tool Bytes := attempt (Op.run cmd)

def print (text : Bytes) : Tool Unit := attempt (Op.print text)

/-- `__RC` -/
def marker : Bytes := [95, 95, 82, 67]

/-- `; echo __RC$?` -/
def echoStatus : Bytes := Ascii.bytes "; echo __RC$?".toList

/-- The loop over `out.find("__RC", searched)`. -/
def search (out : Bytes) (idx : ℤ) (searched : ℕ) : ℤ :=
  match _ : Text.findFrom marker out searched with
  | none => idx
  | some next => search out next (next + 1)
termination_by out.length - searched
decreasing_by
  rename_i h
  have hle := Text.le_of_findFrom h
  have hlt := Text.lt_length_of_findFrom h (List.cons_ne_nil _ _)
  omega

/-- Runs a line and looks for the marker. -/
def runMarked (cmd : Bytes) : Tool (Bytes × ℤ) := do
  let out ← run (cmd ++ echoStatus)
  return (out, search out (-1) 0)

/-- `out[byte = idx + 4 : out.byte_length()]` -/
def status (out : Bytes) (idx : ℤ) : Bytes := out.drop (idx + 4).toNat

def noMarker (cmd : Bytes) : Bytes :=
  Ascii.bytes "shell produced no status marker: ".toList ++ cmd

def failed (rc cmd : Bytes) : Bytes :=
  Ascii.bytes "command failed (exit ".toList ++ rc ++ Ascii.bytes "): ".toList ++ cmd

/-- Raises unless the status is `0`. -/
def check (rc cmd : Bytes) : Tool Unit := do
  if rc ≠ [48] then throw (failed rc cmd)

/-- Without one newline at the end, if there is one. -/
def trimNewline (s : Bytes) : Bytes := if s.getLast? = some 10 then s.dropLast else s

/-- `sh` of `tools/build.mojo`. -/
def Build.sh (cmd : Bytes) : Tool Bytes := do
  let (out, idx) ← runMarked cmd
  if idx = -1 then throw (noMarker cmd)
  else
    let rc := status out idx
    let body := trimNewline (out.take idx.toNat)
    if body.length > 0 then print body
    check rc cmd
    return body

/-- `_sh` of `tools/boot2.mojo`. -/
def Boot2.sh (cmd : Bytes) : Tool Unit := do
  let (out, idx) ← runMarked cmd
  check (status out idx) cmd

/-- ` 2>/dev/null` -/
def quiet : Bytes := Ascii.bytes " 2>/dev/null".toList

/-- `_sh` of `tools/hil.mojo`. -/
def Hil.sh (cmd : Bytes) : Tool Bytes := do
  let (out, idx) ← runMarked (cmd ++ quiet)
  check (status out idx) cmd
  return out.take idx.toNat

/-! ### The surroundings -/

/-- What the shell prints for a line, if it can be run, and what the tool has printed. -/
structure World where
  stdout : Bytes → Except Bytes Bytes
  printed : List Bytes

/-- `run` removes the last newline. -/
def answer : (e : Op) → World → Except Bytes e.Answer × World
  | .run cmd, w => ((w.stdout cmd).map trimNewline, w)
  | .print text, w => (.ok (), { w with printed := w.printed ++ [text] })

/-- The command prints `s` and ends with status `n`, which the shell prints behind it. -/
def World.Prints (w : World) (cmd s : Bytes) (n : ℕ) : Prop :=
  w.stdout (cmd ++ echoStatus) = .ok (s ++ marker ++ Ascii.digits n ++ [10])

def World.show (w : World) (body : Bytes) : World :=
  if body.length > 0 then { w with printed := w.printed ++ [body] } else w

/-! ### The search -/

/-- The search ends with the last marker. It has still to come, or it has just been found. -/
theorem search_eq {out : Bytes} {i : ℕ} (h : Text.IsLast marker out i) {idx : ℤ} {searched : ℕ}
    (hsearched : searched ≤ i ∨ idx = i ∧ searched = i + 1) : search out idx searched = i := by
  fun_induction search out idx searched with
  | case1 idx searched hnone =>
    rcases hsearched with hle | ⟨rfl, -⟩
    · exact absurd h.occurs (Text.not_isPrefix_of_findFrom_eq_none hnone hle)
    · rfl
  | case2 idx searched next hsome ih =>
    have hoccurs := Text.prefix_drop_of_findFrom hsome
    have hnext : next ≤ i := not_lt.mp fun hlt => h.last next hlt hoccurs
    exact ih (hnext.lt_or_eq.imp id fun heq => ⟨by rw [heq], by rw [heq]⟩)

theorem isLast_marker (s : Bytes) (n : ℕ) :
    Text.IsLast marker (s ++ marker ++ Ascii.digits n) s.length := by
  refine Text.isLast_append s fun h => ?_
  -- the second letter of the marker is followed by another one, and the rest has no such letter
  rcases List.infix_cons_iff.mp h with hpre | hrest
  · exact absurd (List.cons_prefix_cons.mp (List.cons_prefix_cons.mp hpre).2).1 (by decide)
  · have hmem : (95 : BitVec 8) ∈ [82, 67] ++ Ascii.digits n :=
      hrest.subset List.mem_cons_self
    rcases List.mem_append.mp hmem with hmark | hdigit
    · exact absurd hmark (by decide)
    · exact absurd (Ascii.digit_of_mem_digits hdigit) (by decide)

/-! ### Output and status -/

theorem trimNewline_concat (s : Bytes) : trimNewline (s ++ [10]) = s := by
  rw [trimNewline, List.getLast?_concat, if_pos rfl, List.dropLast_concat]

theorem status_marked (s : Bytes) (n : ℕ) :
    status (s ++ marker ++ Ascii.digits n) s.length = Ascii.digits n := by
  have hlen : ((s.length : ℤ) + 4).toNat = (s ++ marker).length := by
    rw [List.length_append]
    exact Int.toNat_natCast (s.length + 4)
  rw [status, hlen, List.drop_left]

theorem take_marked (s t : Bytes) : (s ++ marker ++ t).take (s.length : ℤ).toNat = s := by
  rw [Int.toNat_natCast, List.append_assoc, List.take_left]

/-- Only the status 0 is printed as `0`. -/
theorem digits_eq_zero {n : ℕ} : Ascii.digits n = [48] ↔ n = 0 := by
  have hzero : Ascii.digits 0 = [48] := by decide
  rw [← hzero, Ascii.digits_injective.eq_iff]

section Tools

variable {w : World} {cmd s : Bytes} {n : ℕ}

/-- The shell's own marker is found. -/
theorem yields_runMarked (h : w.Prints cmd s n) : Yields answer (runMarked cmd) w
    (.ok (s ++ marker ++ Ascii.digits n, (s.length : ℤ))) w := by
  have hrun : Yields answer (run (cmd ++ echoStatus)) w _ _ := yields_attempt _ w
  rw [answer, h, Except.map, trimNewline_concat] at hrun
  have hsearch : search (s ++ marker ++ Ascii.digits n) (-1) 0 = s.length :=
    search_eq (isLast_marker s n) (.inl (Nat.zero_le _))
  refine hrun.bind ?_
  rw [hsearch]
  exact yields_pure _ _

theorem yields_check : Yields answer (check (Ascii.digits n) cmd) w
    (if n = 0 then .ok () else .error (failed (Ascii.digits n) cmd)) w := by
  rw [check]
  by_cases hzero : n = 0
  · rw [if_neg (not_not.mpr (digits_eq_zero.mpr hzero)), if_pos hzero]
    exact yields_pure _ _
  · rw [if_pos (mt digits_eq_zero.mp hzero), if_neg hzero]
    exact yields_throw _ _

/-- What comes after the check is reached with status 0. -/
theorem yields_check_bind (body : Bytes) :
    Yields answer (check (Ascii.digits n) cmd >>= fun _ => pure body) w
      (if n = 0 then .ok body else .error (failed (Ascii.digits n) cmd)) w := by
  have hcheck : Yields answer (check (Ascii.digits n) cmd) w _ w := yields_check
  split_ifs at hcheck ⊢ with hzero
  · exact hcheck.bind (yields_pure _ _)
  · exact hcheck.raise

theorem yields_buildSh (h : w.Prints cmd s n) : Yields answer (Build.sh cmd) w
    (if n = 0 then .ok (trimNewline s) else .error (failed (Ascii.digits n) cmd))
    (w.show (trimNewline s)) := by
  refine (yields_runMarked h).bind ?_
  dsimp only
  rw [status_marked, take_marked, if_neg (by omega), World.show]
  by_cases hbody : (trimNewline s).length > 0
  · rw [if_pos hbody, if_pos hbody]
    exact (yields_attempt (Op.print (trimNewline s)) w).bind (yields_check_bind _)
  · rw [if_neg hbody, if_neg hbody]
    exact yields_check_bind _

theorem yields_boot2Sh (h : w.Prints cmd s n) : Yields answer (Boot2.sh cmd) w
    (if n = 0 then .ok () else .error (failed (Ascii.digits n) cmd)) w := by
  refine (yields_runMarked h).bind ?_
  dsimp only
  rw [status_marked]
  exact yields_check

theorem yields_hilSh (h : w.Prints (cmd ++ quiet) s n) : Yields answer (Hil.sh cmd) w
    (if n = 0 then .ok s else .error (failed (Ascii.digits n) cmd)) w := by
  refine (yields_runMarked h).bind ?_
  dsimp only
  rw [status_marked, take_marked]
  exact yields_check_bind s

/-- A tool that goes by the status. -/
theorem raises_iff {α : Type} {x : Tool α} {a : α} {e : Bytes} {w' : World}
    (h : Yields answer x w (if n = 0 then .ok a else .error e) w') : Raises answer x w ↔ n ≠ 0 := by
  split_ifs at h with hzero
  · exact iff_of_false h.not_raises (not_not.mpr hzero)
  · exact iff_of_true ⟨e, w', h⟩ hzero

end Tools

/-- **Command status.** Whatever a command prints, all three tools raise exactly if it has failed.
Otherwise `build` gives what it has printed without a newline at the end, and `hil` all of it. -/
theorem status_decoded (s : Bytes) (n : ℕ) (cmd : Bytes) (w : World) :
    (w.Prints cmd s n →
      ((Raises answer (Build.sh cmd) w ↔ n ≠ 0) ∧
        (n = 0 → Yields answer (Build.sh cmd) w (.ok (trimNewline s)) (w.show (trimNewline s)))) ∧
      ((Raises answer (Boot2.sh cmd) w ↔ n ≠ 0) ∧
        (n = 0 → Yields answer (Boot2.sh cmd) w (.ok ()) w))) ∧
    (w.Prints (cmd ++ quiet) s n →
      (Raises answer (Hil.sh cmd) w ↔ n ≠ 0) ∧
        (n = 0 → Yields answer (Hil.sh cmd) w (.ok s) w)) := by
  refine ⟨fun h => ⟨⟨raises_iff (yields_buildSh h), fun hzero => ?_⟩,
    raises_iff (yields_boot2Sh h), fun hzero => ?_⟩,
    fun h => ⟨raises_iff (yields_hilSh h), fun hzero => ?_⟩⟩
  · have hyield := yields_buildSh h
    rwa [if_pos hzero] at hyield
  · have hyield := yields_boot2Sh h
    rwa [if_pos hzero] at hyield
  · have hyield := yields_hilSh h
    rwa [if_pos hzero] at hyield

/-- A shell in which every command prints `s` and ends with status `n`. -/
def World.always (s : Bytes) (n : ℕ) : World :=
  ⟨fun _ => .ok (s ++ marker ++ Ascii.digits n ++ [10]), []⟩

/-- Commands that print a marker with the other status, and half a marker. -/
theorem status_decoded_fake :
    Raises answer (Build.sh []) (World.always (marker ++ [48, 95, 95]) 1) ∧
    Raises answer (Boot2.sh []) (World.always (marker ++ [48, 95, 95]) 1) ∧
    Yields answer (Hil.sh []) (World.always (marker ++ [49, 95, 95]) 0)
      (.ok (marker ++ [49, 95, 95])) (World.always (marker ++ [49, 95, 95]) 0) := by
  obtain ⟨⟨hbuild, -⟩, hboot2, -⟩ :=
    (status_decoded (marker ++ [48, 95, 95]) 1 [] (World.always (marker ++ [48, 95, 95]) 1)).1 rfl
  obtain ⟨-, hhil⟩ :=
    (status_decoded (marker ++ [49, 95, 95]) 0 [] (World.always (marker ++ [49, 95, 95]) 0)).2 rfl
  exact ⟨hbuild.mpr (by decide), hboot2.mpr (by decide), hhil rfl⟩

end Shell
