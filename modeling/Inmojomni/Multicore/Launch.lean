import Inmojomni.Effect.RelyGuarantee
import Inmojomni.Multicore

/-!
# Launching core 1 is sound

`launch` compares each echo with the command just sent, which is not enough by itself: after a
timeout the echoes of earlier attempts are still to come, and a later attempt may match them from
its first word to its last while its own words wait in the FIFO.

Two facts about what is under way settle it. Every word towards core 1 restarts the sequence or
goes on with it from where the word before has left it (`Greeted`), so core 1 takes every word for
what it is. The second of the two zeros is what this needs: the first one may be answered by the
greeting and be discarded. And what comes back after the FIFO has been drained are echoes, with
`entry` at most as the last one of all, when core 1 has started (`Fresh`). So the round that reads
`entry` reads the last echo, however far the echoes lag behind.
-/

namespace Multicore

open Mmio Effect Resync

variable (b : Board)

/-- `Takes`, `Follows` and `Latest` for the sequence of the image. -/
abbrev Follows (q : Progress Word) (ws : List Word) (q' : Progress Word) : Prop :=
  Resync.Follows 0#32 b.words q ws q'

abbrev Latest (q : Progress Word) (w : Word) : Prop := Resync.Latest 0#32 b.words q w

/-- 0, 1, vector table, stack pointer and entry are pairwise distinct. -/
def Board.Distinct : Prop := (0#32 :: b.words).Nodup

instance : Decidable b.Distinct := inferInstanceAs (Decidable (List.Nodup _))

/-! ### What is under way -/

namespace State

/-- Core 1 has started as the image says. -/
def Launched (s : State) : Prop :=
  s.core1 = .started b.vectorTable b.image.sp b.image.entry

/-- Core 1 listens, and what is under way to it leads to a progress in `Q`; or it has started. -/
def Greeted (Q : Progress Word → Prop) (s : State) : Prop :=
  match s.core1 with
  | .listening echo q => (∀ w, echo = some w → Latest b q w) ∧ ∃ q', Follows b q s.tx q' ∧ Q q'
  | .started .. => s.Launched b
  | _ => False

/-- Core 1 has been reset, and gets no more than zeros until it has greeted. -/
def Coherent (s : State) : Prop :=
  s.core1 = .discarding ∨ s.core1 = .greeting ∧ (∀ w ∈ s.tx, w = 0#32) ∨
    s.Greeted b fun _ => True

/-- Nothing from the time before the greeting is in the FIFO, and `entry` is its last word and
says that core 1 has started. -/
def Fresh (s : State) : Prop :=
  match s.core1 with
  | .discarding | .greeting => s.rx = []
  | .listening .. => b.image.entry ∉ s.rx
  | .started .. => b.image.entry ∉ s.rx.dropLast
  | _ => False

end State

/-- What core 0 knows after the first `i` commands of an attempt. -/
def Known : ℕ → State → Prop
  | 0 => State.Coherent b
  | 1 => State.Greeted b fun _ => True
  | n + 2 => State.Greeted b (· = some (b.words.take n))

section Words

variable {b} {q : Progress Word} (h : b.Distinct)
include h

theorem zero_notMem : 0#32 ∉ b.words := (List.nodup_cons.mp h).1

theorem entry_ne_zero : b.image.entry ≠ 0#32 := fun h0 =>
  zero_notMem h (h0 ▸ List.mem_of_getLast? rfl)

/-- `entry` is the word that completes the sequence. -/
theorem complete_of_latest (hl : Latest b q b.image.entry) : q = some b.words :=
  @Resync.Latest.complete Word 0#32 b.image.entry [1#32, b.vectorTable, b.image.sp] q
    (List.nodup_cons.mp h).2 (entry_ne_zero h) hl

end Words

/-! ### What core 1 keeps -/

/-- One core: the other one is the environment. -/
def protocol : Protocol b.machine where
  rely _ := b.Step
  guar _ _ _ _ _ := True
  guar_rely h := absurd (Subsingleton.elim _ _) h
  env_rely h := h

/-- Where the jump is, and where it is not. -/
theorem echoed_cases (q : Progress Word) :
    (∃ x vt sp entry, q = some [x, vt, sp, entry] ∧ Board.echoed q = .started vt sp entry) ∨
      Board.echoed q = .listening none q ∧ ∀ ts, q = some ts → ts.length ≠ 4 := by
  match q with
  | none => exact .inr ⟨rfl, nofun⟩
  | some [x, vt, sp, entry] => exact .inl ⟨x, vt, sp, entry, rfl, rfl⟩
  | some [] | some [_] | some [_, _] | some [_, _, _] | some (_ :: _ :: _ :: _ :: _ :: _) =>
    refine .inr ⟨rfl, fun ts hts => ?_⟩
    rw [← Option.some.inj hts]
    simp

section Keeps

variable {b} (h : b.Distinct)
include h

theorem stable_greeted (Q : Progress Word → Prop) :
    Stable (protocol b) () (State.Greeted b Q) := by
  intro s s' hs hg
  cases hs with
  | read ht =>
    obtain ⟨-, q', hf, hq⟩ := hg
    obtain ⟨hl, hf⟩ := hf.takes (zero_notMem h) ht
    refine ⟨fun w hw => ?_, q', hf, hq⟩
    cases hw
    exact hl
  | @echo rx tx f w q _ =>
    obtain ⟨hl, q', hf, hq⟩ := hg
    rcases echoed_cases q with ⟨x, vt, sp, entry, rfl, he⟩ | ⟨he, -⟩
    · have hwords : [x, vt, sp, entry] = b.words :=
        (hl w rfl).eq_of_length rfl (List.cons_ne_nil _ _)
      cases hwords
      rw [State.Greeted, he]
      exact he
    · rw [State.Greeted, he]
      exact ⟨nofun, q', hf, hq⟩
  | application => exact hg
  | running | discard | discarded | greet => exact hg.elim

theorem stable_coherent : Stable (protocol b) () (State.Coherent b) := by
  intro s s' hs hc
  rcases hc with hd | ⟨hgr, hz⟩ | hg
  · cases hs with
    | discard => exact .inl rfl
    | discarded => exact .inr (.inl ⟨rfl, nofun⟩)
    | running | greet | read | echo | application => cases hd
  · cases hs with
    | greet =>
      obtain ⟨q', hf⟩ := Resync.Follows.of_markers hz none
      exact .inr (.inr ⟨nofun, q', hf, trivial⟩)
    | running | discard | discarded | read | echo | application => cases hgr
  · exact .inr (.inr (stable_greeted h _ s s' hs hg))

/-- The echo of `entry` is the last one. -/
theorem fresh_step {s s' : State} (hs : b.Step s s') (hc : s.Coherent b) (hf : s.Fresh b) :
    s'.Fresh b := by
  cases hs with
  | @echo rx tx f w q _ =>
    have hl : Latest b q w := by
      rcases hc with hd | ⟨hgr, -⟩ | hg
      · cases hd
      · cases hgr
      · exact hg.1 w rfl
    rcases echoed_cases q with ⟨x, vt, sp, entry, -, he⟩ | ⟨he, hne⟩
    · have hlast : (rx ++ [w]).dropLast = rx := List.dropLast_concat
      rw [State.Fresh, he]
      exact hlast.symm ▸ hf
    · rw [State.Fresh, he]
      refine fun hmem => ?_
      rcases List.mem_append.mp hmem with hrx | hw
      · exact hf hrx
      · rw [← List.mem_singleton.mp hw] at hl
        exact hne _ (complete_of_latest h hl) rfl
  | @greet rx tx f _ =>
    obtain rfl : rx = [] := hf
    exact fun hmem => entry_ne_zero h (List.mem_singleton.mp hmem)
  | running | discard | discarded | read | application => exact hf

theorem stable_fresh {P : State → Prop} (hst : Stable (protocol b) () P)
    (hP : ∀ s, P s → s.Coherent b) : Stable (protocol b) () fun s => P s ∧ s.Fresh b :=
  fun s s' hs hp => ⟨hst s s' hs hp.1, fresh_step h hs (hP s hp.1) hp.2⟩

omit h

theorem State.Coherent.ne_running {s : State} (hc : s.Coherent b) : s.core1 ≠ .running := by
  intro hr
  rcases hc with hd | ⟨hgr, -⟩ | hg
  · cases hr.symm.trans hd
  · cases hr.symm.trans hgr
  · rw [State.Greeted, hr] at hg
    exact hg

/-- Core 1 takes words and puts none into its own FIFO. -/
theorem stable_room {P : State → Prop} (hst : Stable (protocol b) () P)
    (hP : ∀ s, P s → s.Coherent b) :
    Stable (protocol b) () fun s => P s ∧ s.tx.length < b.depth := by
  rintro s s' hs ⟨hp, hroom⟩
  refine ⟨hst s s' hs hp, ?_⟩
  have hc := hP s hp
  cases hs with
  | running => exact absurd rfl hc.ne_running
  | discard | read | application => exact Nat.lt_of_succ_lt hroom
  | discarded | greet | echo => exact hroom

/-- It takes none from the other one. -/
theorem stable_word {P : State → Prop} (hst : Stable (protocol b) () P)
    (hP : ∀ s, P s → s.Coherent b) : Stable (protocol b) () fun s => P s ∧ s.rx ≠ [] := by
  rintro s s' hs ⟨hp, hne⟩
  refine ⟨hst s s' hs hp, ?_⟩
  have hc := hP s hp
  cases hs with
  | running => exact absurd rfl hc.ne_running
  | greet | echo => exact List.append_ne_nil_of_left_ne_nil hne _
  | discard | discarded | read | application => exact hne

end Keeps

/-! ### Accesses -/

section Addresses

variable (C : Chip)

theorem sioFifoSt_ne : C.sioFifoSt ≠ C.sioFifoRd := by
  cases C <;> decide

theorem psmFrceOff_ne : C.psmFrceOff ≠ C.sioFifoRd := by
  cases C <;> decide

theorem timer_ne : Chip.timerBase .rp2040 + 0x28#32 ≠ C.sioFifoRd := by
  cases C <;> decide

/-- The words of the image are neither registers of the FIFO nor FRCE_OFF. -/
theorem core1Meta_ne : core1Meta ≠ C.sioFifoSt ∧ core1Meta ≠ C.sioFifoRd ∧
    core1Meta ≠ C.psmFrceOff := by
  cases C <;> decide

theorem core1Meta_sp_ne : core1Meta + 4#32 ≠ C.sioFifoSt ∧ core1Meta + 4#32 ≠ C.sioFifoRd ∧
    core1Meta + 4#32 ≠ C.psmFrceOff := by
  cases C <;> decide

theorem plain_psmFrceOff : Plain C.psmFrceOff := by
  cases C <;> decide

/-- The aliases of FRCE_OFF. -/
theorem psmFrceOff_alias_ne : C.psmFrceOff + setAlias ≠ C.sioFifoWr ∧
    C.psmFrceOff + clrAlias ≠ C.sioFifoWr := by
  cases C <;> decide

end Addresses

section Rules

variable {b} {P : State → Prop} {addr : Word}

theorem read_rule {Q : Word → State → Prop} (hst : Stable (protocol b) () P)
    (hstQ : ∀ r, Stable (protocol b) () (Q r)) (haddr : addr ≠ b.chip.sioFifoRd)
    (h : ∀ s r, P s → b.Reads addr s r → Q r s) :
    Triple (protocol b) () P (read32 addr) Q := by
  refine Triple.call hst hstQ fun s r s' hs ha => ⟨trivial, ?_⟩
  have ha : if addr = b.chip.sioFifoRd then s.Pops r s' else s' = s ∧ b.Reads addr s r := ha
  rw [if_neg haddr] at ha
  rw [ha.1]
  exact h s r hs ha.2

theorem pop_rule {Q : Word → State → Prop} (hst : Stable (protocol b) () P)
    (hstQ : ∀ r, Stable (protocol b) () (Q r)) (h : ∀ s r s', P s → s.Pops r s' → Q r s') :
    Triple (protocol b) () P (read32 b.chip.sioFifoRd) Q := by
  refine Triple.call hst hstQ fun s r s' hs ha => ⟨trivial, h s r s' hs ?_⟩
  have ha : if b.chip.sioFifoRd = b.chip.sioFifoRd then s.Pops r s' else _ := ha
  rwa [if_pos rfl] at ha

theorem pops_cons {s s' : State} {r x : Word} {xs : List Word} (h : s.rx = x :: xs) :
    s.Pops r s' ↔ r = x ∧ s' = { s with rx := xs } := by
  simp only [State.Pops, h]

theorem write_rule {Q : State → Prop} {v : Word} (hst : Stable (protocol b) () P)
    (hstQ : Stable (protocol b) () Q) (h : ∀ s, P s → Q (b.write addr v s)) :
    Triple (protocol b) () P (write32 addr v) fun _ => Q := by
  refine Triple.call hst (fun _ => hstQ) fun s r s' hs ha => ⟨trivial, ?_⟩
  have ha : s' = b.write addr v s := ha
  rw [ha]
  exact h s hs

theorem sev_rule (hst : Stable (protocol b) () P) :
    Triple (protocol b) () P sev fun _ => P := by
  refine Triple.call hst (fun _ => hst) fun s r s' hs ha => ⟨trivial, ?_⟩
  have ha : s' = s := ha
  rw [ha]
  exact hs

theorem ticks_rule (hst : Stable (protocol b) () P) :
    Triple (protocol b) () P (ticks b.chip) fun _ => P := by
  by_cases hr : b.chip.isRiscv = true
  · rw [ticks, if_pos hr]
    refine Triple.call hst (fun _ => hst) fun s r s' hs ha => ⟨trivial, ?_⟩
    have ha : s' = s := ha
    rw [ha]
    exact hs
  · rw [ticks, if_neg hr]
    exact read_rule hst (fun _ => hst) (timer_ne b.chip) fun s r hs _ => hs

/-- A wait that does not run out has seen its bit. -/
theorem fifoWait_rule {G : State → Prop} {bit timeoutUs : Word} (hst : Stable (protocol b) () P)
    (hstG : Stable (protocol b) () fun s => P s ∧ G s)
    (hG : ∀ s r, P s → b.Reads b.chip.sioFifoSt s r → r &&& bit ≠ 0#32 → G s) :
    Triple (protocol b) () P (fifoWait b.chip bit timeoutUs)
      fun ok s => P s ∧ (ok = true → G s) := by
  have hpost : ∀ ok : Bool, Stable (protocol b) () fun s => P s ∧ (ok = true → G s) := by
    intro ok
    cases ok with
    | false => simpa using hst
    | true => simpa using hstG
  refine (ticks_rule hst).bind fun t0 => ?_
  refine Triple.loop (I := fun _ => P) (fun _ => hst) hpost (fun _ => ?_) ()
  let K (r : Word) (s : State) : Prop := P s ∧ (r &&& bit ≠ 0#32 → G s)
  have hK : ∀ r, Stable (protocol b) () (K r) := by
    intro r
    by_cases hr : r &&& bit = 0#32
    · simpa [K, hr] using hst
    · simpa [K, hr] using hstG
  refine (read_rule (Q := K) hst hK (sioFifoSt_ne b.chip) fun s r hs hr =>
    ⟨hs, hG s r hs hr⟩).bind fun r => ?_
  split_ifs with hr
  · refine Triple.pre (P := P) ?_ fun s hs => hs.1
    refine (ticks_rule hst).bind fun t => ?_
    split_ifs
    · exact Triple.ret hst fun s hs => ⟨hs, nofun⟩
    · exact Triple.ret hst fun s hs => hs
  · exact Triple.ret (hK r) fun s hs => ⟨hs.1, fun _ => hs.2 hr⟩

/-- A push that succeeds has found room. -/
theorem fifoPush_rule {Q : State → Prop} {v timeoutUs : Word} (hst : Stable (protocol b) () P)
    (hP : ∀ s, P s → s.Coherent b) (hstQ : Stable (protocol b) () Q)
    (h : ∀ s, P s → Q { s with tx := s.tx ++ [v] }) :
    Triple (protocol b) () P (fifoPush b.chip v timeoutUs) fun ok s => ok = true → Q s := by
  have hroom := stable_room hst hP
  refine (fifoWait_rule hst hroom fun s r _ hr hbit => ?_).bind fun ready => ?_
  · rw [Board.Reads, if_pos rfl] at hr
    exact hr.2.mp hbit
  cases ready with
  | false => exact Triple.ret (by simpa using hst) fun _ _ => nofun
  | true =>
    refine Triple.pre (P := fun s => P s ∧ s.tx.length < b.depth) ?_ fun s hs => ⟨hs.1, hs.2 rfl⟩
    refine (write_rule (Q := Q) hroom hstQ fun s hs => ?_).bind fun _ => ?_
    · rw [Board.write, if_pos rfl, if_pos hs.2]
      exact h s hs.1
    · exact (sev_rule hstQ).bind fun _ => Triple.ret hstQ fun s hs _ => hs

/-- A pop that succeeds answers the word that came first. -/
theorem fifoPop_rule {Q : Word → State → Prop} {timeoutUs : Word}
    (hst : Stable (protocol b) () P) (hP : ∀ s, P s → s.Coherent b)
    (hstQ : ∀ r, Stable (protocol b) () (Q r))
    (h : ∀ s r rx, P s → s.rx = r :: rx → Q r { s with rx := rx }) :
    Triple (protocol b) () P (fifoPop b.chip timeoutUs)
      fun r s => if r.1 then Q r.2 s else P s := by
  have hword := stable_word hst hP
  refine (fifoWait_rule hst hword fun s r _ hr hbit => ?_).bind fun valid => ?_
  · rw [Board.Reads, if_pos rfl] at hr
    exact hr.1.mp hbit
  cases valid with
  | false => exact Triple.ret (by simpa using hst) fun s hs => hs.1
  | true =>
    refine Triple.pre (P := fun s => P s ∧ s.rx ≠ []) ?_ fun s hs => ⟨hs.1, hs.2 rfl⟩
    refine (pop_rule hword hstQ fun s r s' hs ha => ?_).bind fun r =>
      Triple.ret (hstQ r) fun s hs => hs
    obtain ⟨x, xs, hrx⟩ := List.exists_cons_of_ne_nil hs.2
    obtain ⟨rfl, rfl⟩ := (pops_cons hrx).mp ha
    exact h s _ xs hs.1 hrx

end Rules

/-! ### Draining -/

section Drain

variable {b} {P : State → Prop}

theorem pops_rx {s s' : State} {r : Word} (h : s.Pops r s') : ∃ rx, s' = { s with rx := rx } := by
  cases hrx : s.rx with
  | nil =>
    have hs : s' = s := by simpa only [State.Pops, hrx] using h
    exact ⟨s.rx, hs⟩
  | cons x xs => exact ⟨xs, ((pops_cons hrx).mp h).2⟩

theorem fresh_of_empty {s : State} (hc : s.Coherent b) (hrx : s.rx = []) : s.Fresh b := by
  obtain ⟨rx, tx, f, core1⟩ := s
  obtain rfl : rx = [] := hrx
  cases core1 with
  | running => exact absurd rfl hc.ne_running
  | off =>
    rcases hc with hd | ⟨hgr, -⟩ | hg
    · cases hd
    · cases hgr
    · exact hg
  | discarding | greeting => rfl
  | listening | started => exact List.not_mem_nil

/-- The drain ends with an empty FIFO, and from then on there is nothing stale in it. -/
theorem fifoDrain_rule (h : b.Distinct) (hst : Stable (protocol b) () P)
    (hP : ∀ s, P s → s.Coherent b) (hrx : ∀ s rx, P s → P { s with rx := rx }) :
    Triple (protocol b) () P (fifoDrain b.chip) fun _ s => P s ∧ s.Fresh b := by
  have hfresh := stable_fresh h hst hP
  unfold fifoDrain
  refine Triple.bind (Q := fun (_ : Word) s => P s ∧ s.Fresh b) ?_ fun junk => ?_
  · refine Triple.loop (I := fun _ => P) (fun _ => hst) (fun _ => hfresh) (fun junk => ?_) 0#32
    let K (r : Word) (s : State) : Prop := P s ∧ (r &&& stVld = 0#32 → s.Fresh b)
    have hK : ∀ r, Stable (protocol b) () (K r) := by
      intro r
      by_cases hr : r &&& stVld = 0#32
      · simpa [K, hr] using hfresh
      · simpa [K, hr] using hst
    refine (read_rule (Q := K) hst hK (sioFifoSt_ne b.chip) fun s r hs hr =>
      ⟨hs, fun h0 => ?_⟩).bind fun r => ?_
    · rw [Board.Reads, if_pos rfl] at hr
      exact fresh_of_empty (hP s hs) (by_contra fun hne => hr.1.mpr hne h0)
    · split_ifs with hr
      · refine (pop_rule (hK r) (fun _ => hst) fun s v s' hs ha => ?_).bind fun v =>
          Triple.ret hst fun s hs => hs
        obtain ⟨rx, rfl⟩ := pops_rx ha
        exact hrx s rx hs.1
      · exact Triple.ret (hK r) fun s hs => ⟨hs.1, hs.2 (not_not.mp hr)⟩
  · split_ifs
    · exact sev_rule hfresh
    · exact Triple.ret hfresh fun s hs => hs

end Drain

/-! ### The commands -/

section Commands

variable {b} {P : State → Prop}

theorem core1MetaWord_rule {i : Word} (hst : Stable (protocol b) () P) :
    Triple (protocol b) () P (core1MetaWord i) fun r s =>
      r = (if i = 1#32 then b.image.sp else if i = 2#32 then b.image.mtvec else b.image.entry) ∧
        P s := by
  refine Triple.call hst (fun r s s' hs hp => ⟨hp.1, hst s s' hs hp.2⟩) fun s r s' hs ha =>
    ⟨trivial, ?_⟩
  obtain ⟨rfl, hr⟩ := ha
  exact ⟨hr, hs⟩

/-- The last command, which every index from 5 on gives. -/
theorem command_entry {i : ℕ} (hi : 5 ≤ i) : b.command i = b.image.entry := by
  obtain ⟨n, rfl⟩ := Nat.exists_eq_add_of_le hi
  rw [Board.command, if_neg (by omega), show 5 + n - 2 = n + 3 by omega]
  cases n with
  | _ => rfl

theorem vectorTable_eq : b.vectorTable =
    if b.chip.isRiscv then b.image.mtvec else Multicore.vectorTable := rfl

theorem reads_core1Meta {s : State} {r : Word} :
    b.Reads core1Meta s r ↔ r = b.image.entry := by
  obtain ⟨hst, -, hpsm⟩ := core1Meta_ne b.chip
  rw [Board.Reads, if_neg hst, if_neg hpsm, if_pos rfl]

theorem reads_core1Meta_sp {s : State} {r : Word} :
    b.Reads (core1Meta + 4#32) s r ↔ r = b.image.sp := by
  obtain ⟨hst, -, hpsm⟩ := core1Meta_sp_ne b.chip
  rw [Board.Reads, if_neg hst, if_neg hpsm, if_neg (by decide), if_pos rfl]

/-- `cmd` gives the commands: some at once, some from the image. -/
theorem cmd_cases (i : ℕ) :
    cmd b.chip i = .ret (b.command i) ∨
      (∃ addr, cmd b.chip i = read32 addr ∧ addr ≠ b.chip.sioFifoRd ∧
        ∀ s r, b.Reads addr s r ↔ r = b.command i) ∨
      ∃ j, cmd b.chip i = core1MetaWord j ∧
        b.command i = if j = 1#32 then b.image.sp else if j = 2#32 then b.image.mtvec
          else b.image.entry := by
  by_cases h01 : i = 0 ∨ i = 1
  · refine .inl ?_
    rw [cmd, if_pos h01, Board.command, if_pos (by omega)]
    rfl
  by_cases h2 : i = 2
  · subst h2
    exact .inl rfl
  have h5 : i = 3 ∨ i = 4 ∨ 5 ≤ i := by omega
  by_cases hr : b.chip.isRiscv = true
  · refine .inr (.inr ?_)
    rcases h5 with rfl | rfl | h5
    · refine ⟨2#32, ?_, ?_⟩
      · rw [cmd, if_neg h01, if_neg h2, if_pos hr, if_pos rfl]
      · exact vectorTable_eq.trans (if_pos hr)
    · refine ⟨1#32, ?_, rfl⟩
      rw [cmd, if_neg h01, if_neg h2, if_pos hr, if_neg (by decide), if_pos rfl]
    · refine ⟨0#32, ?_, command_entry h5⟩
      rw [cmd, if_neg h01, if_neg h2, if_pos hr, if_neg (by omega), if_neg (by omega)]
  · rcases h5 with rfl | rfl | h5
    · refine .inl ?_
      rw [cmd, if_neg h01, if_neg h2, if_neg hr, if_pos rfl]
      exact congrArg Prog.ret (vectorTable_eq.trans (if_neg hr)).symm
    · refine .inr (.inl ⟨core1Meta + 4#32, ?_, (core1Meta_sp_ne b.chip).2.1,
        fun s r => reads_core1Meta_sp⟩)
      rw [cmd, if_neg h01, if_neg h2, if_neg hr, if_neg (by decide), if_pos rfl]
    · refine .inr (.inl ⟨core1Meta, ?_, (core1Meta_ne b.chip).2.1, fun s r => ?_⟩)
      · rw [cmd, if_neg h01, if_neg h2, if_neg hr, if_neg (by omega), if_neg (by omega)]
      · rw [command_entry h5]
        exact reads_core1Meta

theorem cmd_rule {i : ℕ} (hst : Stable (protocol b) () P) :
    Triple (protocol b) () P (cmd b.chip i) fun c s => c = b.command i ∧ P s := by
  have hstQ : ∀ c, Stable (protocol b) () fun s => c = b.command i ∧ P s :=
    fun c s s' hs hp => ⟨hp.1, hst s s' hs hp.2⟩
  rcases cmd_cases (b := b) i with h | ⟨addr, h, haddr, hreads⟩ | ⟨j, h, hj⟩
  · rw [h]
    exact Triple.ret hst fun s hs => ⟨rfl, hs⟩
  · rw [h]
    exact read_rule hst hstQ haddr fun s r hs hr => ⟨(hreads s r).mp hr, hs⟩
  · rw [h, hj]
    exact core1MetaWord_rule hst

/-- `_cmd(i)` answers `v`. -/
def Gives (b : Board) (i : ℕ) (v : Word) : Prop :=
  ∀ s r s', Exec b.access (cmd b.chip i) s r s' ↔ r = v ∧ s' = s

theorem gives_command (i : ℕ) : Gives b i (b.command i) := by
  intro s r s'
  rcases cmd_cases (b := b) i with h | ⟨addr, h, haddr, hreads⟩ | ⟨j, h, hj⟩
  · rw [h]
    exact exec_ret
  · rw [h]
    refine exec_op.trans ⟨?_, ?_⟩
    · rintro ⟨v, t, ht, hv⟩
      obtain ⟨rfl, rfl⟩ := exec_ret.mp hv
      have ht : if addr = b.chip.sioFifoRd then s.Pops r s' else s' = s ∧ b.Reads addr s r := ht
      rw [if_neg haddr] at ht
      exact ⟨(hreads s r).mp ht.2, ht.1⟩
    · rintro ⟨rfl, rfl⟩
      refine ⟨_, s', ?_, exec_ret.mpr ⟨rfl, rfl⟩⟩
      exact (if_neg haddr).mpr ⟨rfl, (hreads s' _).mpr rfl⟩
  · rw [h, hj]
    refine exec_op.trans ⟨?_, ?_⟩
    · rintro ⟨v, t, ⟨rfl, rfl⟩, hv⟩
      exact exec_ret.mp hv
    · rintro ⟨rfl, rfl⟩
      exact ⟨_, s', ⟨rfl, rfl⟩, exec_ret.mpr ⟨rfl, rfl⟩⟩

end Commands

/-! ### What core 0 knows -/

section Known

variable {b} {s : State}

theorem greeted_coherent {Q : Progress Word → Prop} (hg : s.Greeted b Q) : s.Coherent b := by
  refine .inr (.inr ?_)
  obtain ⟨rx, tx, f, core1⟩ := s
  cases core1 with
  | listening => exact ⟨hg.1, hg.2.imp fun _ hq => ⟨hq.1, trivial⟩⟩
  | started => exact hg
  | running | off | discarding | greeting => exact hg.elim

theorem known_coherent {i : ℕ} (hk : Known b i s) : s.Coherent b := by
  match i with
  | 0 => exact hk
  | 1 | _ + 2 => exact greeted_coherent hk

theorem stable_known (h : b.Distinct) (i : ℕ) : Stable (protocol b) () (Known b i) := by
  match i with
  | 0 => exact stable_coherent h
  | 1 | _ + 2 => exact stable_greeted h _

/-- What is known is about the words on their way to core 1. -/
theorem known_rx {i : ℕ} (hk : Known b i s) (rx : List Word) :
    Known b i { s with rx := rx } := by
  match i with
  | 0 | 1 | _ + 2 => exact hk

/-- One more word under way. -/
theorem greeted_push {Q Q' : Progress Word → Prop} {v : Word} (hg : s.Greeted b Q)
    (h : ∀ q q', Follows b q s.tx q' → Q q' → ∃ q'', Follows b q (s.tx ++ [v]) q'' ∧ Q' q'') :
    State.Greeted b Q' { s with tx := s.tx ++ [v] } := by
  obtain ⟨rx, tx, f, core1⟩ := s
  cases core1 with
  | listening echo q =>
    obtain ⟨hl, q', hf, hq⟩ := hg
    exact ⟨hl, h q q' hf hq⟩
  | started => exact hg
  | running | off | discarding | greeting => exact hg.elim

theorem take_command {n : ℕ} (hn : n < 4) :
    b.words.take n ++ [b.command (n + 2)] = b.words.take (n + 1) := by
  have hw : n < b.words.length := hn
  rw [Board.command, if_neg (by omega), Nat.add_sub_cancel, List.getD_eq_getElem _ _ hw]
  exact (List.take_succ_eq_append_getElem hw).symm

/-- Pushing the command of index `i`. The first one leaves open whether core 1 has greeted. -/
theorem known_push {i : ℕ} (hi : i < 6) (hk : Known b i s) :
    Known b (if i = 0 then 0 else i + 1) { s with tx := s.tx ++ [b.command i] } := by
  match i with
  | 0 =>
    rcases hk with hd | ⟨hgr, hz⟩ | hg
    · exact .inl hd
    · refine .inr (.inl ⟨hgr, fun w hw => ?_⟩)
      rcases List.mem_append.mp hw with hw | hw
      · exact hz w hw
      · exact List.mem_singleton.mp hw
    · exact .inr (.inr (greeted_push hg fun q q' hf _ => ⟨_, hf.snoc_marker, trivial⟩))
  | 1 => exact greeted_push hk fun q q' hf _ => ⟨_, hf.snoc_marker, rfl⟩
  | n + 2 =>
    have htake := take_command (b := b) (n := n) (by omega)
    refine greeted_push hk ?_
    rintro q q' hf rfl
    exact ⟨_, hf.snoc (htake ▸ List.take_prefix _ _), congrArg some htake⟩

/-- `launch` is through: core 1 has started, and there is nothing left to read. -/
def State.Done (b : Board) (s : State) : Prop := s.Launched b ∧ s.rx = []

/-- Between two rounds. At the beginning of an attempt the FIFO may hold anything. -/
def Between (b : Board) (i : ℕ) (s : State) : Prop :=
  i < 6 ∧ Known b i s ∧ (i ≠ 0 → s.Fresh b) ∨ i = 6 ∧ s.Done b

/-- A word in the FIFO says that core 1 has greeted. -/
theorem greeted_pop {r : Word} {rx : List Word} (hc : s.Coherent b) (hf : s.Fresh b)
    (hrx : s.rx = r :: rx) :
    State.Greeted b (fun _ => True) { s with rx := rx } ∧ State.Fresh b { s with rx := rx } := by
  obtain ⟨rx₀, tx, f, core1⟩ := s
  obtain rfl : rx₀ = r :: rx := hrx
  have hg : State.Greeted b (fun _ => True) ⟨rx, tx, f, core1⟩ := by
    rcases hc with rfl | ⟨rfl, -⟩ | hg
    · cases hf
    · cases hf
    · exact hg
  refine ⟨hg, ?_⟩
  cases core1 with
  | listening => exact fun hmem => hf (List.mem_cons_of_mem _ hmem)
  | started =>
    refine fun hmem => hf ?_
    cases rx with
    | nil => exact hmem
    | cons x xs => exact List.mem_cons_of_mem _ hmem
  | running | off | discarding | greeting => exact hg.elim

/-- Popping the echo of the command of index `i`. -/
theorem between_pop {i : ℕ} {rx : List Word} (hi : i < 6)
    (hk : Known b (if i = 0 then 0 else i + 1) s) (hf : s.Fresh b)
    (hrx : s.rx = b.command i :: rx) : Between b (i + 1) { s with rx := rx } := by
  obtain ⟨hg, hf'⟩ := greeted_pop (known_coherent hk) hf hrx
  by_cases h5 : i = 5
  · -- the last echo
    subst h5
    refine .inr ⟨rfl, ?_⟩
    obtain ⟨rx₀, tx, f, core1⟩ := s
    obtain rfl : rx₀ = b.image.entry :: rx := hrx
    cases core1 with
    | started =>
      refine ⟨hg, by_contra fun hne => hf ?_⟩
      obtain ⟨x, xs, rfl⟩ := List.exists_cons_of_ne_nil hne
      exact List.mem_cons_self
    | listening => exact absurd List.mem_cons_self hf
    | running | off | discarding | greeting => exact hg.elim
  · refine .inl ⟨by omega, ?_, fun _ => hf'⟩
    match i with
    | 0 => exact hg
    | n + 1 => exact known_rx hk rx

end Known

/-! ### The handshake -/

section Handshake

variable {b}

theorem stable_done : Stable (protocol b) () (State.Done b) := by
  rintro s s' hs ⟨hl, hrx⟩
  cases hs with
  | application => exact ⟨hl, hrx⟩
  | running | discard | discarded | greet | read | echo => cases hl

theorem stable_between (h : b.Distinct) (i : ℕ) : Stable (protocol b) () (Between b i) := by
  rintro s s' hs (⟨hi, hk, hf⟩ | ⟨hi, hd⟩)
  · refine .inl ⟨hi, stable_known h i s s' hs hk, fun h0 => ?_⟩
    exact fresh_step h hs (known_coherent hk) (hf h0)
  · exact .inr ⟨hi, stable_done s s' hs hd⟩

theorem between_zero {s : State} (hc : s.Coherent b) : Between b 0 s :=
  .inl ⟨by decide, hc, nofun⟩

/-- What a round leads to: another round, or the answer of `launch`. -/
def After (b : Board) (r : (ℕ × ℕ) ⊕ Bool) (s : State) : Prop :=
  Sum.elim (fun p => Between b p.1 s) (fun ok => ok = true → s.Done b) r

/-- A command and its echo. -/
theorem exchange_rule (h : b.Distinct) {i attempts : ℕ} (hi : i < 6) :
    Triple (protocol b) () (fun s => Known b i s ∧ s.Fresh b)
      (exchange b.chip i attempts (b.command i)) (After b) := by
  let j : ℕ := if i = 0 then 0 else i + 1
  have hst : ∀ k, Stable (protocol b) () fun s => Known b k s ∧ s.Fresh b :=
    fun k => stable_fresh h (stable_known h k) fun s => known_coherent
  let Echo (r : Word) (s : State) : Prop :=
    s.Coherent b ∧ (r = b.command i → Between b (i + 1) s)
  have hecho : ∀ r, Stable (protocol b) () (Echo r) := fun r s s' hs he =>
    ⟨stable_coherent h s s' hs he.1, fun hr => stable_between h _ s s' hs (he.2 hr)⟩
  refine (fifoPush_rule (Q := fun s => Known b j s ∧ s.Fresh b) (hst i)
    (fun s hs => known_coherent hs.1) (hst j) fun s hs => ⟨known_push hi hs.1, hs.2⟩).bind
    fun pushed => ?_
  cases pushed with
  | false =>
    refine Triple.pre (P := fun _ => True) (Triple.ret (fun _ _ _ hs => hs) fun s _ => ?_) ?_
    · exact (nofun : false = true → s.Done b)
    · exact fun _ _ => trivial
  | true =>
    refine Triple.pre (P := fun s => Known b j s ∧ s.Fresh b) ?_ fun s hs => hs rfl
    refine (fifoPop_rule (Q := Echo) (hst j) (fun s hs => known_coherent hs.1) hecho
      fun s r rx hs hrx => ?_).bind fun r => ?_
    · refine ⟨known_coherent (known_rx hs.1 rx), fun hr => ?_⟩
      rw [hr] at hrx
      exact between_pop hi hs.1 hs.2 hrx
    · obtain ⟨ok, v⟩ := r
      cases ok with
      | false => exact Triple.ret (hst j) fun s hs => between_zero (known_coherent hs.1)
      | true =>
        by_cases hv : v = b.command i
        · rw [hv, Bool.true_and, decide_eq_true rfl]
          exact Triple.ret (hecho _) fun s hs => hs.2 rfl
        · rw [Bool.true_and, decide_eq_false hv]
          exact Triple.ret (hecho v) fun s hs => between_zero hs.1

theorem command_eq_zero_iff (h : b.Distinct) {i : ℕ} (hi : i < 6) :
    b.command i = 0#32 ↔ i < 2 := by
  refine ⟨fun h0 => by_contra fun h2 => zero_notMem h ?_, fun h2 => if_pos h2⟩
  have hw : i - 2 < b.words.length := by
    change i - 2 < 4
    omega
  rw [← h0, Board.command, if_neg h2, List.getD_eq_getElem _ _ hw]
  exact List.getElem_mem hw

theorem round_rule (h : b.Distinct) (i attempts : ℕ) :
    Triple (protocol b) () (Between b i) (round b.chip (i, attempts)) (After b) := by
  by_cases hi : i < 6
  · rw [round, if_pos hi]
    split_ifs
    · refine Triple.ret (stable_between h i) fun s _ => ?_
      exact (nofun : false = true → s.Done b)
    · refine (cmd_rule (stable_between h i)).bind fun c => Triple.assume fun hc => ?_
      rw [hc]
      have hpre : ∀ s, Between b i s → Known b i s ∧ (i ≠ 0 → s.Fresh b) := by
        rintro s (hs | ⟨rfl, -⟩)
        · exact hs.2
        · exact absurd hi (lt_irrefl _)
      by_cases h2 : i < 2
      · -- a zero: drain first
        have hst := stable_known h i
        rw [if_pos ((command_eq_zero_iff h hi).mpr h2)]
        refine Triple.pre (P := Known b i) ?_ fun s hs => (hpre s hs).1
        refine (fifoDrain_rule h hst (fun s => known_coherent) fun s rx hs => known_rx hs rx).bind
          fun _ => ?_
        refine (sev_rule (stable_fresh h hst fun s => known_coherent)).bind fun _ => ?_
        exact exchange_rule h hi
      · rw [if_neg (mt (command_eq_zero_iff h hi).mp h2)]
        refine Triple.pre (exchange_rule h hi) fun s hs => ?_
        exact ⟨(hpre s hs).1, (hpre s hs).2 (by omega)⟩
  · rw [round, if_neg hi]
    refine Triple.ret (stable_between h i) ?_
    rintro s (⟨hlt, -⟩ | ⟨-, hd⟩)
    · exact absurd hlt hi
    · exact fun _ => hd

theorem write_frceOff_set {s : State} {v : Word} :
    b.write (b.chip.psmFrceOff + setAlias) v s = s.power b.chip (s.frceOff ||| v) := by
  have hplain := plain_psmFrceOff b.chip
  have hreg := hplain.register_add (l := setAlias) (by decide)
  rw [Board.write, if_neg (psmFrceOff_alias_ne b.chip).1, if_pos hreg, hplain.combine_set]

theorem write_frceOff_clr {s : State} {v : Word} :
    b.write (b.chip.psmFrceOff + clrAlias) v s = s.power b.chip (s.frceOff &&& ~~~v) := by
  have hplain := plain_psmFrceOff b.chip
  have hreg := hplain.register_add (l := clrAlias) (by decide)
  rw [Board.write, if_neg (psmFrceOff_alias_ne b.chip).2, if_pos hreg, hplain.combine_clr]

/-- A core without power does nothing. -/
theorem stable_off : Stable (protocol b) () fun s => s.core1 = .off := by
  intro s s' hs hoff
  cases hs with
  | _ => cases hoff

/-- After the reset, core 1 is in the boot ROM. -/
theorem resetCore1_rule (h : b.Distinct) : Triple (protocol b) () (fun _ => True)
    (resetCore1 b.chip) fun _ => State.Coherent b := by
  have hproc : b.chip.psmProc1 ≠ 0#32 := by
    cases b.chip <;> decide
  refine (write_rule (Q := fun s => s.core1 = .off) (fun _ _ _ hs => hs) stable_off
    fun s _ => ?_).bind fun _ => ?_
  · rw [write_frceOff_set]
    refine if_pos ?_
    rwa [BitVec.or_and_self]
  refine Triple.bind (Q := fun _ s => s.core1 = .off) ?_ fun r => ?_
  · refine Triple.poll stable_off (fun _ => stable_off) fun s r s' hs ha => ⟨trivial, ?_⟩
    have ha : if b.chip.psmFrceOff = b.chip.sioFifoRd then s.Pops r s' else s' = s ∧ _ := ha
    rw [if_neg (psmFrceOff_ne b.chip)] at ha
    rw [ha.1]
    exact (ite_self _).symm ▸ hs
  · refine write_rule stable_off (stable_coherent h) fun s hs => .inl ?_
    rw [write_frceOff_clr]
    refine (if_neg ?_).trans (if_pos hs)
    rw [BitVec.and_not_and_self]
    exact not_not.mpr rfl

theorem launch_rule (h : b.Distinct) :
    Triple (protocol b) () (fun _ => True) (launch b.chip)
      fun ok s => ok = true → s.Done b := by
  have hdone : ∀ ok : Bool, Stable (protocol b) () fun s => ok = true → s.Done b :=
    fun ok s s' hs hd hok => stable_done s s' hs (hd hok)
  refine (resetCore1_rule h).bind fun _ => ?_
  refine Triple.pre (Triple.loop (I := fun p => Between b p.1) (fun p => stable_between h p.1)
    hdone (fun p => ?_) (0, 0)) fun s => between_zero
  refine (round_rule h p.1 p.2).post fun r s hs => ?_
  cases r with
  | _ => exact hs

end Handshake

/-- **Launching core 1 is sound.** From any state of the FIFOs and of core 1, and whatever core 1
takes its time for: when `launch` answers `True`, core 1 has started with the vector table, stack
pointer and entry that `_cmd` gives, and no echo is left in the FIFO towards core 0. -/
theorem launch_sound {b : Board} {s : State} {cfg : Config Unit Op.Answer Bool State}
    (h : b.Distinct) (hr : b.machine.Reach ⟨s, fun _ => launch b.chip⟩ cfg)
    (hend : cfg.threads () = .ret true) :
    ∃ vectorTable sp entry, cfg.shared.core1 = .started vectorTable sp entry ∧
      Gives b 3 vectorTable ∧ Gives b 4 sp ∧ Gives b 5 entry ∧ cfg.shared.rx = [] := by
  have hsafe := (protocol b).sound (P := fun _ _ => True)
    (Q := fun _ ok t => ok = true → t.Done b) (fun _ => launch_rule h) (fun _ => trivial) hr ()
  obtain ⟨hl, hrx⟩ := Safe.result hsafe hend rfl
  exact ⟨_, _, _, hl, gives_command 3, gives_command 4, gives_command 5, hrx⟩

/-! ### A launch -/

namespace Board

/-- What a load answers. -/
def load (b : Board) (addr : Word) (s : State) : Word :=
  if addr = b.chip.sioFifoSt then
    (if s.rx = [] then 0#32 else stVld) ||| (if s.tx.length < b.depth then stRdy else 0#32)
  else if addr = b.chip.psmFrceOff then s.frceOff
  else if addr = core1Meta then b.image.entry
  else if addr = core1Meta + 4#32 then b.image.sp
  else 0#32

theorem reads_load (b : Board) (addr : Word) (s : State) : b.Reads addr s (b.load addr s) := by
  rw [Reads, load]
  split_ifs with _ hrx htx htx
  · exact ⟨iff_of_false (by decide) (not_not.mpr hrx), iff_of_true (by decide) htx⟩
  · exact ⟨iff_of_false (by decide) (not_not.mpr hrx), iff_of_false (by decide) htx⟩
  · exact ⟨iff_of_true (by decide) hrx, iff_of_true (by decide) htx⟩
  · exact ⟨iff_of_true (by decide) hrx, iff_of_false (by decide) htx⟩
  · rfl
  · rfl
  · rfl

/-- Answers of the hardware. -/
def answer (b : Board) : (e : Op) → State → Option (e.Answer × State)
  | .read32 addr, s =>
    if addr = b.chip.sioFifoRd then s.rx.head?.map fun x => ((x : Word), { s with rx := s.rx.tail })
    else some ((b.load addr s : Word), s)
  | .write32 addr v, s => some ((), b.write addr v s)
  | .external .picoSev, s => some ((), s)
  | _, _ => none

theorem access_of_answer {b : Board} {e : Op} {s : State} {p : e.Answer × State}
    (h : b.answer e s = some p) : b.access e s p.1 p.2 := by
  cases e with
  | read32 addr =>
    have h : (if addr = b.chip.sioFifoRd then
        s.rx.head?.map fun x => ((x : Word), { s with rx := s.rx.tail })
      else some ((b.load addr s : Word), s)) = some p := h
    by_cases hrd : addr = b.chip.sioFifoRd
    · rw [if_pos hrd] at h
      obtain ⟨x, hx, rfl⟩ := Option.map_eq_some_iff.mp h
      obtain ⟨xs, hrx⟩ := List.head?_eq_some_iff.mp hx
      refine (if_pos hrd).mpr ((pops_cons hrx).mpr ⟨rfl, ?_⟩)
      rw [hrx, List.tail_cons]
    · rw [if_neg hrd] at h
      cases h
      exact (if_neg hrd).mpr ⟨rfl, b.reads_load addr s⟩
  | write32 addr v =>
    cases h
    rfl
  | external f =>
    cases f with
    | picoSev =>
      cases h
      rfl
    | readMcycle | core1MetaWord => exact nomatch h
  | read8 | write8 => exact nomatch h

/-- The moves of core 1. -/
inductive Move
  | discard | discarded | greet | read | echo

def move (b : Board) (s : State) : Move → Option State
  | .discard =>
    match s with
    | ⟨rx, _ :: tx, f, .discarding⟩ => some ⟨rx, tx, f, .discarding⟩
    | _ => none
  | .discarded =>
    match s with
    | ⟨rx, [], f, .discarding⟩ => some ⟨rx, [], f, .greeting⟩
    | _ => none
  | .greet =>
    match s with
    | ⟨rx, tx, f, .greeting⟩ =>
      if rx.length < b.depth then some ⟨rx ++ [0#32], tx, f, .listening none none⟩ else none
    | _ => none
  | .read =>
    match s with
    | ⟨rx, w :: tx, f, .listening none q⟩ =>
      if w = 0#32 then some ⟨rx, tx, f, .listening (some w) (some [])⟩
      else q.bind fun ts =>
        if ts.length < 4 ∧ (ts = [] → w = 1#32) then
          some ⟨rx, tx, f, .listening (some w) (some (ts ++ [w]))⟩
        else none
    | _ => none
  | .echo =>
    match s with
    | ⟨rx, tx, f, .listening (some w) q⟩ =>
      if rx.length < b.depth then some ⟨rx ++ [w], tx, f, echoed q⟩ else none
    | _ => none

theorem step_of_move {b : Board} {i : Move} {s s' : State} (h : b.move s i = some s') :
    b.Step s s' := by
  cases i with
  | discard =>
    simp only [move] at h
    split at h
    · cases h
      exact .discard
    · cases h
  | discarded =>
    simp only [move] at h
    split at h
    · cases h
      exact .discarded
    · cases h
  | greet =>
    simp only [move] at h
    split at h
    · split_ifs at h with hroom
      cases h
      exact .greet hroom
    · cases h
  | read =>
    simp only [move] at h
    split at h
    · split_ifs at h with hw
      · cases h
        rw [hw]
        exact .read .restart
      · obtain ⟨ts, rfl, hts⟩ := Option.bind_eq_some_iff.mp h
        split_ifs at hts with hmay
        cases hts
        exact .read (.take hw hmay)
    · cases h
  | echo =>
    simp only [move] at h
    split at h
    · split_ifs at h with hroom
      cases h
      exact .echo hroom
    · cases h

end Board

theorem reach_of_play {b : Board} {cfg cfg' : Config Unit Op.Answer Bool State}
    (cs : List (Machine.Choice Unit Board.Move))
    (h : Machine.play (fun _ => b.answer) (fun i s => b.move s i) cfg cs = some cfg') :
    b.machine.Reach cfg cfg' :=
  @Machine.Reach.of_play Unit Op Op.Answer Bool State _ b.machine Board.Move _ _
    (fun _ _ _ _ h => Board.access_of_answer h) (fun _ _ _ h => Board.step_of_move h) cfg cfg' cs h

/-- A Pico with an image. -/
def pico : Board where
  chip := .rp2040
  image := ⟨0x10000401#32, 0x20041000#32, 0#32⟩
  depth := 8

/-- A stale word in either FIFO, and core 1 in the middle of something. -/
def stale : State := ⟨[7#32], [9#32], 0#32, .running⟩

/-- Core 1 greets after the first command and keeps up from then on. -/
theorem launch_sound_pico : ∃ cfg,
    pico.machine.Reach ⟨stale, fun _ => launch pico.chip⟩ cfg ∧ cfg.threads () = .ret true ∧
      ∃ vectorTable sp entry, cfg.shared.core1 = .started vectorTable sp entry ∧
        Gives pico 3 vectorTable ∧ Gives pico 4 sp ∧ Gives pico 5 entry ∧ cfg.shared.rx = [] := by
  let t : Machine.Choice Unit Board.Move := .thread ()
  let command : List (Machine.Choice Unit Board.Move) := [t, t, t, t, t]
  let answer : List (Machine.Choice Unit Board.Move) := [t, t, t, t, t]
  let core1 : List (Machine.Choice Unit Board.Move) := [.env .read, .env .echo]
  obtain ⟨cfg, hr, hend⟩ : ∃ cfg,
      pico.machine.Reach ⟨stale, fun _ => launch pico.chip⟩ cfg ∧ cfg.threads () = .ret true :=
    ⟨_, reach_of_play ([t, t, t, t, t] ++ ([t, t, t, t, t, t] ++ command ++
      [.env .discard, .env .discard, .env .discarded, .env .greet] ++ answer) ++
      ([t, t, t] ++ command ++ core1 ++ answer) ++ (command ++ core1 ++ answer) ++
      (command ++ core1 ++ answer) ++ (t :: command ++ core1 ++ answer) ++
      (t :: command ++ core1 ++ answer)) rfl, rfl⟩
  exact ⟨cfg, hr, hend, launch_sound (by decide) hr hend⟩

end Multicore
