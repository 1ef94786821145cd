import Inmojomni.Bench
import Inmojomni.Effect.Fallible

/-!
# Is a benchmark result fresh?

`run_bench` reads the mailbox and has five words of evidence that the page is the one its own
image committed: magic, state, counts and the language id. Between the copy and the read the
device goes through one cycle, in which the image leaves the page it found or puts its own in
place. So a list is fresh when the image commits; when it does not, what is read is the page that
was there before, and the words that should tell it apart are the ones of its language.
`fresh_iff` is about whole sessions: every list is fresh exactly when each image commits or finds
no page that passes for one of its language. A second run of one language is where it fails.
-/

namespace Bench

open Effect Mmio

/-! ### The page -/

namespace Image

variable (im : Image)

theorem length_results : im.results.length = 54 := rfl

/-- The stores of `start` but the last are a header, one word elsewhere and the measurements. -/
theorem start_eq : im.start =
    Ram.block mb [magic, 1#32, BitVec.ofNat 32 count, BitVec.ofNat 32 runs, im.lang] ++
      [(fibN, 24#32)] ++ Ram.block (mb + 0x14#32) im.results ++ [(mb + 0x04#32, 2#32)] := by
  rfl

private theorem mb_apart {j k : ℕ} (hjk : j ≠ k) (hj : j < 64) (hk : k < 64) :
    Ram.Apart (mb + BitVec.ofNat 32 (4 * j)) (mb + BitVec.ofNat 32 (4 * k)) :=
  Ram.apart_offsets hjk (by omega) (by omega)

private theorem offset_results (j : ℕ) :
    mb + 0x14#32 + BitVec.ofNat 32 (4 * j) = mb + BitVec.ofNat 32 (4 * (j + 5)) := by
  rw [BitVec.add_assoc, Nat.mul_add, Nat.add_comm, BitVec.ofNat_add]

/-- The first five words and the measurements. -/
def words : List Word :=
  [magic, 2#32, BitVec.ofNat 32 count, BitVec.ofNat 32 runs, im.lang] ++ im.results

/-- What is staged at word `k` of the mailbox. -/
theorem read32_staged {k : ℕ} (hk : k < 59) :
    (im.sram.storeAll im.start).read32 (mb + BitVec.ofNat 32 (4 * k)) = im.words.getD k 0#32 := by
  rw [start_eq, Ram.storeAll_append, Ram.storeAll_append]
  by_cases hk1 : k = 1
  · subst hk1
    exact Ram.read32_write32
  refine (Ram.read32_write32_of_apart (mb_apart (Ne.symm hk1) (by omega) (by omega))).trans ?_
  rcases Nat.lt_or_ge k 5 with hk5 | hk5
  · -- the stores after the header are somewhere else
    have hlater : ∀ w ∈ Ram.block (mb + 0x14#32) im.results,
        Ram.Apart w.1 (mb + BitVec.ofNat 32 (4 * k)) := fun w hw => by
      obtain ⟨j, hj, hw⟩ := Ram.exists_of_mem_block hw
      rw [length_results] at hj
      rw [hw, offset_results]
      exact mb_apart (by omega) (by omega) (by omega)
    have hfib : ∀ w ∈ [(fibN, 24#32)], Ram.Apart w.1 (mb + BitVec.ofNat 32 (4 * k)) := by
      intro w hw
      rw [List.mem_singleton.mp hw, Ram.Apart, fibN, mb]
      constructor
      · bv_omega
      · bv_omega
    rw [Ram.read32_storeAll_of_apart hlater, Ram.storeAll_append,
      Ram.read32_storeAll_of_apart hfib]
    refine (Ram.read32_storeAll_block (Nat.le_of_ble_eq_true rfl) hk5).trans ?_
    obtain rfl | rfl | rfl | rfl : k = 0 ∨ k = 2 ∨ k = 3 ∨ k = 4 := by omega
    all_goals rfl
  · obtain ⟨j, rfl⟩ := Nat.exists_eq_add_of_le' hk5
    have hj : j < im.results.length := by rw [length_results]; omega
    rw [← offset_results, words, List.getD_append_right _ _ _ _ hk5]
    refine (Ram.read32_storeAll_block (by rw [length_results]; decide) hj).trans ?_
    rw [← List.getD_eq_getElem _ 0#32]
    rfl

theorem length_words : im.words.length = 59 := rfl

/-- The words `run_bench` reads of a committed page. -/
theorem take_page : (List.ofFn im.page).take 59 = im.words := by
  refine List.ext_getElem ?_ fun k h₁ h₂ => ?_
  · rw [List.length_take, List.length_ofFn, length_words]
    rfl
  · rw [List.getElem_take, List.getElem_ofFn, ← List.getD_eq_getElem _ 0#32]
    exact im.read32_staged h₂

end Image

/-- The words that `run_bench` looks at say: a finished page of this language. -/
def Page.Marked (p : Page) (langId : Word) : Prop :=
  p 0 = magic ∧ p 1 = 2#32 ∧ (p 2 = BitVec.ofNat 32 count ∧ p 3 = BitVec.ofNat 32 runs) ∧
    p 4 = langId

/-- What `run_bench` returns of a page. -/
def Page.body (p : Page) : List Word := ((List.ofFn p).take 59).drop hdr

theorem checkPage_eq_ok_iff {c : Call} {p : Page} {ws : List Word} :
    checkPage c ((List.ofFn p).take 59) = .ok ws ↔ p.Marked c.langId ∧ ws = p.body := by
  have hbody : ((List.range (runs * count * 2)).map fun i =>
      ((List.ofFn p).take 59).getD (hdr + i) 0#32) = p.body := by
    refine List.ext_getElem ?_ fun i h₁ h₂ => ?_
    · rw [Page.body, List.length_map, List.length_range, List.length_drop, List.length_take,
        List.length_ofFn]
      rfl
    · rw [List.getElem_map, List.getElem_range, List.getD_eq_getElem]
      exact List.getElem_drop.symm
  rw [checkPage, hbody, Fallible.ite_error_eq_ok_iff, Fallible.ite_error_eq_ok_iff,
    Fallible.ite_error_eq_ok_iff, Fallible.ite_error_eq_ok_iff, Except.ok.injEq, not_or, not_not,
    not_not, not_not, not_not, not_not, eq_comm (b := ws), Page.Marked, and_assoc, and_assoc,
    and_assoc, and_assoc, and_assoc]
  exact Iff.rfl

/-- A committed page passes for its own language, and its body is the measurements. -/
theorem Image.marked_page (im : Image) : im.page.Marked im.lang := by
  have hword : ∀ k : Fin 64, (k : ℕ) < 59 → im.page k = im.words.getD k 0#32 :=
    fun _ hk => im.read32_staged hk
  refine ⟨hword 0 ?_, hword 1 ?_, ⟨hword 2 ?_, hword 3 ?_⟩, hword 4 ?_⟩
  all_goals decide

theorem Image.body_page (im : Image) : im.page.body = im.results := by
  rw [Page.body, take_page, words]
  rfl

/-! ### One cycle of the device -/

/-- The pages that may be in the mailbox the next time something is copied to the drive. An image
that is on its way may commit before that; one that was only copied may also be replaced. -/
def Device.leftover (d : Device) : List Page :=
  match d.phase with
  | .bootsel => [d.mailbox]
  | .loaded im => [d.mailbox, im.leave d.mailbox]
  | .running im => [im.leave d.mailbox]

theorem Device.Step.leftover {d d' : Device} (h : d.Step d') {p : Page} (hp : p ∈ d'.leftover) :
    p ∈ d.leftover := by
  cases h with
  | boot h =>
    rw [Device.leftover, h]
    exact List.mem_cons_of_mem _ hp
  | back h =>
    rw [Device.leftover, h]
    exact hp

theorem Device.Step.flashes {d d' : Device} (h : d.Step d') : d'.flashes = d.flashes := by
  cases h with
  | boot | back => rfl

theorem Device.mailbox_mem_leftover {d : Device} (h : d.InBootsel) : d.mailbox ∈ d.leftover := by
  rw [Device.leftover]
  split
  · exact List.mem_singleton_self _
  · exact List.mem_cons_self
  · exact absurd ‹_› (h _)

/-- `im` was copied as number `k` when the mailbox held `p`. -/
def Device.Flashed (im : Image) (p : Page) (k : ℕ) (d : Device) : Prop :=
  d.flashes = k ∧
    match d.phase with
    | .bootsel => d.mailbox = im.leave p ∧ (im.commits → d.author = some k)
    | .loaded im' => im' = im ∧ d.mailbox = p
    | .running im' => im' = im ∧ d.mailbox = p

/-- What was copied has been started. -/
def Device.Started (d : Device) : Prop := ∀ im, d.phase ≠ .loaded im

theorem Device.Step.flashed {im : Image} {p : Page} {k : ℕ} {d d' : Device} (h : d.Step d')
    (hd : d.Flashed im p k) : d'.Flashed im p k := by
  obtain ⟨hk, hphase⟩ := hd
  cases h with
  | boot h =>
    rw [h] at hphase
    exact ⟨hk, hphase⟩
  | back h =>
    rw [h] at hphase
    obtain ⟨rfl, rfl⟩ := hphase
    exact ⟨hk, rfl, fun hc => by rw [Device.back, if_pos hc, hk]⟩

theorem Device.Step.started {d d' : Device} (h : d.Step d') : d'.Started := by
  cases h with
  | boot | back => exact nofun

theorem Device.Step.phase_ne {d d' : Device} (h : d.Step d') : d.phase ≠ .bootsel := by
  cases h with
  | boot h | back h =>
    rw [h]
    exact nofun

/-! ### One call -/

/-- The host's operations, with the device going on in between. -/
abbrev live : (e : Op) → World → Except String e.Answer → World → Prop :=
  Meanwhile World.Step access

section Polls

variable {I : World → Prop} (hI : ∀ w w', I w → w.Step w' → I w') {w w' : World}

include hI

theorem mounted_spec {b : Bool} (h : Returns live mounted w b w') (hw : I w) :
    I w' ∧ w'.device.Shows b := by
  obtain ⟨t, ht, rfl, hb⟩ := (returns_attempt.mp h).keep hI hw
  exact ⟨ht, hb⟩

theorem sleep_spec {n : ℕ} {u : Unit} (h : Returns live (sleep n) w u w') (hw : I w) : I w' := by
  obtain ⟨t, ht, rfl, -⟩ := (returns_attempt.mp h).keep hI hw
  exact ht

/-- One round of waiting for the drive. -/
theorem round_spec {x : Script Op.Answer String Unit} {u : Unit}
    (h : Returns live (do if ← mounted then pure () else x) w u w') (hw : I w)
    (hx : ∀ t, I t → Returns live x t u w' → I w') : I w' := by
  obtain ⟨b, t, hm, h⟩ := returns_bind.mp h
  obtain ⟨ht, -⟩ := mounted_spec hI hm hw
  rcases returns_ite.mp h with ⟨-, h⟩ | ⟨-, h⟩
  · obtain ⟨-, rfl⟩ := returns_pure.mp h
    exact ht
  · exact hx t ht h

theorem awaitDrive_spec {n : ℕ} {u : Unit} (h : Returns live (awaitDrive n) w u w') (hw : I w) :
    I w' := by
  induction n generalizing w with
  | zero => exact round_spec hI h hw fun t _ hraise => absurd hraise not_returns_throw
  | succ n ih =>
    refine round_spec hI h hw fun t ht h => ?_
    obtain ⟨_, t', hsleep, h⟩ := returns_bind.mp h
    exact ih h (sleep_spec hI hsleep ht)

/-- The device was seen without its drive. -/
theorem awaitGone_spec {n : ℕ} (h : Returns live (awaitGone n) w true w') (hw : I w) :
    I w' ∧ w'.device.Started := by
  induction n generalizing w with
  | zero => exact Bool.noConfusion (returns_pure.mp h).1
  | succ n ih =>
    obtain ⟨_, t, hsleep, h⟩ := returns_bind.mp h
    obtain ⟨b, t', hm, h⟩ := returns_bind.mp h
    obtain ⟨ht, hshows⟩ := mounted_spec hI hm (sleep_spec hI hsleep hw)
    rcases returns_ite.mp h with ⟨-, h⟩ | ⟨hb, h⟩
    · exact ih h ht
    · obtain ⟨-, rfl⟩ := returns_pure.mp h
      refine ⟨ht, fun im hload => hb ?_⟩
      rw [Device.Shows, hload] at hshows
      exact hshows

theorem awaitReturn_spec {n : ℕ} {u : Unit} (h : Returns live (awaitReturn n) w u w') (hw : I w) :
    I w' := by
  induction n generalizing w with
  | zero =>
    obtain ⟨-, rfl⟩ := returns_pure.mp h
    exact hw
  | succ n ih =>
    refine round_spec hI h hw fun t ht h => ?_
    obtain ⟨_, t', hsleep, h⟩ := returns_bind.mp h
    exact ih h (sleep_spec hI hsleep ht)

end Polls

/-- From the copy on, the device is in its cycle, and at the end the image is through. -/
theorem collect_spec {c : Call} {p : Page} {k : ℕ} {w w' : World} {ws : List Word}
    (h : Returns live (collect c) w ws w') (hw : w.device.Flashed c.elf p k) :
    (c.elf.leave p).Marked c.langId ∧ ws = (c.elf.leave p).body ∧ w'.device.flashes = k ∧
      (c.elf.commits → w'.device.author = some k) := by
  let Cycle (w : World) : Prop := w.device.Flashed c.elf p k
  let Late (w : World) : Prop := Cycle w ∧ w.device.Started
  let Through (w : World) : Prop := Cycle w ∧ w.device.phase = .bootsel
  have hCycle : ∀ s s', Cycle s → s.Step s' → Cycle s' := fun s s' hs hstep => hstep.2.flashed hs
  have hLate : ∀ s s', Late s → s.Step s' → Late s' := fun s s' hs hstep =>
    ⟨hstep.2.flashed hs.1, hstep.2.started⟩
  have hThrough : ∀ s s', Through s → s.Step s' → Through s' := by
    rintro s s' ⟨-, hphase⟩ ⟨-, hstep⟩
    exact absurd hphase hstep.phase_ne
  obtain ⟨_, w₁, hsync, h₁⟩ := returns_bind.mp h
  obtain ⟨gone, w₂, hgone, h₂⟩ := returns_bind.mp h₁
  have hw₁ : Cycle w₁ := by
    obtain ⟨s, hs, rfl⟩ := (returns_attempt.mp hsync).keep hCycle hw
    exact hs
  rcases returns_ite.mp h₂ with ⟨rfl, h₂⟩ | ⟨-, h₂⟩
  swap
  · exact absurd h₂ not_returns_throw
  have hw₂ : Late w₂ := awaitGone_spec hCycle hgone hw₁
  obtain ⟨_, w₃, hreturn, h₃⟩ := returns_bind.mp h₂
  obtain ⟨back, w₄, hmounted, h₄⟩ := returns_bind.mp h₃
  obtain ⟨hw₄, hshows⟩ := mounted_spec hLate hmounted (awaitReturn_spec hLate hreturn hw₂)
  rcases returns_ite.mp h₄ with ⟨rfl, h₄⟩ | ⟨-, h₄⟩
  swap
  · exact absurd h₄ not_returns_throw
  -- started, and the drive is there: the image is through
  have hw₄ : Through w₄ := by
    refine ⟨hw₄.1, ?_⟩
    rw [Device.Shows] at hshows
    split at hshows
    · assumption
    · exact absurd ‹_› (hw₄.2 _)
    · exact nomatch hshows
  obtain ⟨_, w₅, hsleep, h₅⟩ := returns_bind.mp h₄
  obtain ⟨flat, w₆, hread, h₆⟩ := returns_bind.mp h₅
  obtain ⟨s, ⟨⟨hk, hcycle⟩, hphase⟩, rfl, -, rfl⟩ :=
    (returns_attempt.mp hread).keep hThrough (sleep_spec hThrough hsleep hw₄)
  rw [hphase] at hcycle
  obtain ⟨hmailbox, hauthor⟩ := hcycle
  obtain ⟨hok, rfl⟩ := exec_ret.mp h₆
  obtain ⟨hmarked, rfl⟩ := checkPage_eq_ok_iff.mp hok.symm
  rw [← hmailbox]
  exact ⟨hmarked, rfl, hk, hauthor⟩

/-- **What a list says.** It is the body of the page that one cycle of the image leaves of some
page that was there before, and that page passes for one of the language. -/
theorem runBench_spec {c : Call} {w w' : World} {ws : List Word}
    (h : Returns live (runBench c) w ws w') : ∃ p ∈ w.device.leftover,
      (c.elf.leave p).Marked c.langId ∧ ws = (c.elf.leave p).body ∧
      w'.device.flashes = w.device.flashes + 1 ∧
      (c.elf.commits → w'.device.author = some w'.device.flashes) := by
  -- up to the copy, no page comes up that could not have come up before
  let Before (t : World) : Prop :=
    (∀ p ∈ t.device.leftover, p ∈ w.device.leftover) ∧ t.device.flashes = w.device.flashes
  let Ready (t : World) : Prop := Before t ∧ t.uf2 = some c.elf
  have hBefore : ∀ t t', Before t → t.Step t' → Before t' := fun t t' ht hs =>
    ⟨fun p hp => ht.1 p (hs.2.leftover hp), hs.2.flashes.trans ht.2⟩
  have hReady : ∀ t t', Ready t → t.Step t' → Ready t' := fun t t' ht hs =>
    ⟨hBefore t t' ht.1 hs, hs.1.trans ht.2⟩
  obtain ⟨_, w₁, hconvert, h₁⟩ := returns_bind.mp h
  obtain ⟨_, w₂, hdrive, h₂⟩ := returns_bind.mp h₁
  obtain ⟨_, w₃, hcp, h₃⟩ := returns_bind.mp h₂
  have hw₁ : Ready w₁ := by
    obtain ⟨t, ht, rfl⟩ := (returns_attempt.mp hconvert).keep hBefore ⟨fun _ hp => hp, rfl⟩
    exact ⟨ht, rfl⟩
  obtain ⟨t, ⟨⟨hleft, hflashes⟩, huf2⟩, hcopied⟩ :=
    (returns_attempt.mp hcp).keep hReady (awaitDrive_spec hReady hdrive hw₁)
  rcases hcopied with ⟨-, e, he⟩ | ⟨hboot, im, him, rfl⟩
  · exact nomatch he
  obtain rfl : c.elf = im := Option.some.inj (huf2.symm.trans him)
  obtain ⟨hmarked, hws, hk, hauthor⟩ := collect_spec h₃ ⟨rfl, rfl, rfl⟩
  refine ⟨t.device.mailbox, hleft _ (Device.mailbox_mem_leftover hboot), hmarked, hws, ?_, ?_⟩
  · rw [hk, ← hflashes]
    rfl
  · rw [hk]
    exact hauthor

theorem Device.exists_boot {d : Device} {p : Page} (hp : p ∈ d.leftover) :
    ∃ d', Relation.ReflTransGen Device.Step d d' ∧ d'.InBootsel ∧ d'.mailbox = p := by
  have hidle : d.phase = .bootsel ∨ (∃ im, d.phase = .loaded im) → d.InBootsel := by
    rintro (h | ⟨im, h⟩) im' h'
    · exact nomatch h.symm.trans h'
    · exact nomatch h.symm.trans h'
  rw [Device.leftover] at hp
  split at hp
  · rename_i hphase
    obtain rfl := List.mem_singleton.mp hp
    exact ⟨d, .refl, hidle (.inl hphase), rfl⟩
  · rename_i im hphase
    rcases List.mem_pair.mp hp with rfl | rfl
    · exact ⟨d, .refl, hidle (.inr ⟨im, hphase⟩), rfl⟩
    · exact ⟨_, (Relation.ReflTransGen.single (.boot hphase)).tail (.back rfl), nofun, rfl⟩
  · rename_i hphase
    obtain rfl := List.mem_singleton.mp hp
    exact ⟨_, .single (.back hphase), nofun, rfl⟩

theorem Device.InBootsel.shows {d : Device} (h : d.InBootsel) : d.Shows true := by
  rw [Device.Shows]
  split
  · trivial
  · rfl
  · exact absurd ‹_› (h _)

/-- Once copied, the image can go through its cycle and what it leaves is read. -/
theorem exists_collect {c : Call} {p : Page} {w : World} (hphase : w.device.phase = .loaded c.elf)
    (hp : w.device.mailbox = p) (hmarked : (c.elf.leave p).Marked c.langId) :
    ∃ w', Returns live (collect c) w (c.elf.leave p).body w' ∧ w'.device.phase = .bootsel ∧
      w'.device.mailbox = c.elf.leave p := by
  let run : World := { w with device := { w.device with phase := .running c.elf } }
  let back : World := { w with device := run.device.back c.elf }
  have hboot : w.Step run := ⟨rfl, .boot hphase⟩
  have hback : run.Step back := ⟨rfl, .back rfl⟩
  have hmailbox : back.device.mailbox = c.elf.leave p := congrArg c.elf.leave hp
  refine ⟨back, ?_, rfl, hmailbox⟩
  refine returns_bind.mpr ⟨(), w, returns_attempt.mpr ⟨w, .refl, rfl⟩, ?_⟩
  -- off USB at the first look, and back at the next one
  refine returns_bind.mpr ⟨true, run, ?_, returns_ite.mpr (.inl ⟨rfl, ?_⟩)⟩
  · refine returns_bind.mpr ⟨(), w, returns_attempt.mpr ⟨w, .refl, rfl, rfl⟩, ?_⟩
    refine returns_bind.mpr ⟨false, run, returns_attempt.mpr ⟨run, .single hboot, rfl, rfl⟩, ?_⟩
    exact returns_ite.mpr (.inr ⟨Bool.false_ne_true, returns_pure.mpr ⟨rfl, rfl⟩⟩)
  refine returns_bind.mpr ⟨(), back, ?_, ?_⟩
  · refine returns_bind.mpr ⟨true, back, returns_attempt.mpr ⟨back, .single hback, rfl, ?_⟩, ?_⟩
    · exact True.intro
    · exact returns_ite.mpr (.inl ⟨rfl, returns_pure.mpr ⟨rfl, rfl⟩⟩)
  refine returns_bind.mpr ⟨true, back, returns_attempt.mpr ⟨back, .refl, rfl, True.intro⟩,
    returns_ite.mpr (.inl ⟨rfl, ?_⟩)⟩
  refine returns_bind.mpr ⟨(), back, returns_attempt.mpr ⟨back, .refl, rfl, rfl⟩, ?_⟩
  refine returns_bind.mpr ⟨_, back, returns_attempt.mpr ⟨back, .refl, rfl, nofun, rfl⟩, ?_⟩
  rw [← hmailbox] at hmarked ⊢
  exact exec_ret.mpr ⟨(checkPage_eq_ok_iff.mpr ⟨hmarked, rfl⟩).symm, rfl⟩

/-- Any page that may come up, may be what is read. -/
theorem exists_returns {c : Call} {p : Page} {w : World} (hp : p ∈ w.device.leftover)
    (hmarked : (c.elf.leave p).Marked c.langId) :
    ∃ w', Returns live (runBench c) w (c.elf.leave p).body w' ∧ w'.device.phase = .bootsel ∧
      w'.device.mailbox = c.elf.leave p := by
  obtain ⟨d, hd, hboot, hmailbox⟩ := Device.exists_boot hp
  let ready : World := ⟨some c.elf, w.device⟩
  let there : World := ⟨some c.elf, d⟩
  let copied : World := ⟨some c.elf, d.flash c.elf⟩
  have hthere : Relation.ReflTransGen World.Step ready there :=
    hd.lift (fun d => (⟨some c.elf, d⟩ : World)) fun _ _ hs => ⟨rfl, hs⟩
  obtain ⟨w', hcollect, hw'⟩ := @exists_collect c p copied rfl hmailbox hmarked
  refine ⟨w', ?_, hw'⟩
  refine returns_bind.mpr ⟨(), ready, returns_attempt.mpr ⟨w, .refl, rfl⟩, ?_⟩
  refine returns_bind.mpr ⟨(), there, ?_, ?_⟩
  · refine returns_bind.mpr ⟨true, there,
      returns_attempt.mpr ⟨there, hthere, rfl, hboot.shows⟩, ?_⟩
    exact returns_ite.mpr (.inl ⟨rfl, returns_pure.mpr ⟨rfl, rfl⟩⟩)
  · exact returns_bind.mpr ⟨(), copied,
      returns_attempt.mpr ⟨there, .refl, .inr ⟨hboot, c.elf, rfl, rfl⟩⟩, hcollect⟩

/-! ### Sessions -/

/-- A call that has ended, with the world before and after it. -/
structure Done where
  before : World
  call : Call
  outcome : Except String (List Word)
  after : World

/-- If the call returned a list, it is what the image flashed in this call measured, and that
image committed it. -/
def Done.Fresh (e : Done) : Prop :=
  ∀ ws, e.outcome = .ok ws → e.call.elf.commits ∧ ws = e.call.elf.results ∧
    e.after.device.flashes = e.before.device.flashes + 1 ∧
    e.after.device.author = some e.after.device.flashes

/-- Calls one after the other. A new host session may find any file in `/tmp`. -/
inductive Session (w₀ : World) : List Done → World → Prop
  | start : Session w₀ [] w₀
  | host {log : List Done} {w : World} (h : Session w₀ log w) (uf2 : Option Image) :
      Session w₀ log { w with uf2 := uf2 }
  | call {log : List Done} {w w' : World} {c : Call} {r : Except String (List Word)}
      (h : Session w₀ log w) (hc : Exec live (runBench c).run w r w') :
      Session w₀ (log ++ [⟨w, c, r, w'⟩]) w'

/-- The image commits its page, or no page that may be there before passes for one of the
language. -/
def Call.ToldApart (c : Call) (d : Device) : Prop :=
  c.elf.commits ∨ ∀ p ∈ d.leftover, ¬ p.Marked c.langId

theorem Done.fresh {e : Done} (he : Exec live (runBench e.call).run e.before e.outcome e.after)
    (h : e.call.ToldApart e.before.device) : e.Fresh := by
  intro ws hws
  rw [hws] at he
  obtain ⟨p, hp, hmarked, rfl, hflashes, hauthor⟩ := runBench_spec he
  by_cases hc : e.call.elf.commits
  · have hleave : e.call.elf.leave p = e.call.elf.page := if_pos hc
    exact ⟨hc, by rw [hleave, Image.body_page], hflashes, hauthor hc⟩
  · -- the page read would be one of those that were there
    have hleave : e.call.elf.leave p = p := if_neg hc
    rw [hleave] at hmarked
    exact absurd hmarked (h.resolve_left hc p hp)

/-- Each call of a session started where the calls before it had led. -/
theorem Session.exists_split {w₀ w : World} {log : List Done} (h : Session w₀ log w) {e : Done}
    (he : e ∈ log) : ∃ l₁ l₂, log = l₁ ++ e :: l₂ ∧ Session w₀ l₁ e.before ∧
      Exec live (runBench e.call).run e.before e.outcome e.after := by
  induction h with
  | start => exact absurd he List.not_mem_nil
  | host h uf2 ih => exact ih he
  | @call log w w' c r h hc ih =>
    rcases List.mem_append.mp he with he | he
    · obtain ⟨l₁, l₂, rfl, hs⟩ := ih he
      exact ⟨l₁, l₂ ++ [⟨w, c, r, w'⟩], List.append_assoc _ _ _, hs⟩
    · obtain rfl := List.mem_singleton.mp he
      exact ⟨log, [], rfl, h, hc⟩

/-- **Freshness.** Whatever page is there at first: in all sessions that make these calls, every
list is fresh exactly when in all of them each call can tell its page apart from those before. -/
theorem fresh_iff (w₀ : World) (calls : List Call) :
    (∀ log w, Session w₀ log w → log.map Done.call <+: calls → ∀ e ∈ log, e.Fresh) ↔
      ∀ log w, Session w₀ log w → log.map Done.call <+: calls →
        ∀ e ∈ log, e.call.ToldApart e.before.device := by
  constructor
  · intro hfresh log w hs hcalls e he
    by_contra hnot
    rw [Call.ToldApart, not_or, not_forall] at hnot
    obtain ⟨hc, p, hp⟩ := hnot
    obtain ⟨hp, hmarked⟩ := Classical.not_imp.mp hp
    -- the same session up to this call, which now reads the page `p`
    obtain ⟨l₁, l₂, rfl, hbefore, -⟩ := hs.exists_split he
    have hleave : e.call.elf.leave p = p := if_neg hc
    obtain ⟨w', hstale, -⟩ := exists_returns hp (hleave.symm ▸ not_not.mp hmarked)
    have hcall := hfresh _ w' (hbefore.call hstale) ?_ _ (List.mem_append_right _
      (List.mem_singleton_self _)) _ rfl
    · exact hc hcall.1
    · rw [List.map_append, List.map_cons] at hcalls ⊢
      refine List.IsPrefix.trans ?_ hcalls
      exact (List.prefix_append_right_inj _).mpr (List.cons_prefix_cons.mpr ⟨rfl, List.nil_prefix⟩)
  · intro hcond log w hs hcalls e he
    obtain ⟨_, _, -, -, hexec⟩ := hs.exists_split he
    exact Done.fresh hexec (hcond log w hs hcalls e he)

/-- The same language twice, and the second image does not commit: the first list again. -/
theorem stale_accepted :
    let im : Image := ⟨1#32, fun _ _ => (0#32, 0#32), fun _ => 0#8, true⟩
    let w₀ : World := ⟨none, ⟨.bootsel, fun _ => 0xFFFFFFFF#32, none, 0⟩⟩
    ¬ ∀ log w, Session w₀ log w →
      log.map Done.call <+: [⟨im, 1#32, "mojo"⟩, ⟨{ im with commits := false }, 1#32, "mojo"⟩] →
      ∀ e ∈ log, e.Fresh := by
  intro im w₀ h
  let c₁ : Call := ⟨im, 1#32, "mojo"⟩
  let c₂ : Call := ⟨{ im with commits := false }, 1#32, "mojo"⟩
  obtain ⟨w₁, hfirst, hphase, hmailbox⟩ :=
    @exists_returns c₁ _ w₀ (List.mem_singleton_self _) im.marked_page
  have hleft : im.page ∈ w₁.device.leftover := by
    rw [Device.leftover, hphase, hmailbox]
    exact List.mem_singleton_self _
  obtain ⟨w₂, hsecond, -⟩ := @exists_returns c₂ _ w₁ hleft im.marked_page
  have hfresh := h _ _ ((Session.start.call hfirst).call hsecond) (List.prefix_refl _) _
    (List.mem_append_right _ (List.mem_singleton_self _)) _ rfl
  exact Bool.false_ne_true hfresh.1

end Bench
