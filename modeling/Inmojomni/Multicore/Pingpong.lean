import Inmojomni.Multicore.Channel

/-!
# The ping-pong between the cores

The on-target test of the FIFOs: core 1 sends `v + 1` back for every word `v` that it gets, and
core 0 sends some words and compares what comes back. `pingpong_verdict` is what a failure of the
test can mean: not a wrong word, whatever the interleaving, but only a call that timed out.

On the channels, what core 0 has received is a prefix of what core 1 has sent, that is a
subsequence of what core 1 has received, each word one more, and that is a prefix of what core 0
has sent. Before a word comes back core 0 has received one word less than it has sent, and so the
word that comes is the one it expects.
-/

namespace Multicore

open Mmio Effect

/-! ### The programs -/

namespace Calls

/-- The call `fifo_push` of a program. -/
def fifoPush (v timeoutUs : Word) : Prog FifoOp.Answer Bool := Prog.call (FifoOp.push v timeoutUs)

/-- The call `fifo_pop` of a program. -/
def fifoPop (timeoutUs : Word) : Prog FifoOp.Answer (Bool × Word) :=
  Prog.call (FifoOp.pop timeoutUs)

end Calls

/-- Core 1: reply `v + 1` to everything core 0 sends. -/
def echo : Prog FifoOp.Answer Bool :=
  Prog.loop (fun _ : Unit => do
    let r ← Calls.fifoPop 1000000#32
    if r.1 then do
      let _ ← Calls.fifoPush (r.2 + 1#32) 1000000#32
      return .inl ()
    else
      return .inl ()) ()

/-- The loop of `test_fifo_pingpong`, over the words that it sends. -/
def pingpong : List Word → Prog FifoOp.Answer Bool
  | [] => return true
  | v :: vs => do
    let ok ← Calls.fifoPush v 100000#32
    if !ok then return false
    else do
      let r ← Calls.fifoPop 100000#32
      if !r.1 || r.2 != v + 1#32 then return false else pingpong vs

/-- The words of the test. -/
def pingpongWords : List Word :=
  (List.range 5).map fun i => 0x1000#32 + BitVec.ofNat 32 (i * 0x111)

/-- The test on core 0, and the echo on core 1. -/
def pingpongClients (vs : List Word) : Core → Prog FifoOp.Answer Bool
  | .core0 => pingpong vs
  | .core1 => echo

/-! ### What the calls leave on record -/

/-- The channels, and the calls made so far. -/
abbrev Recorded := (Core → List Word) × List (Event Core FifoOp.Answer)

/-- A call of core `t` has timed out. -/
def TimedOut (t : Core) : List (Event Core FifoOp.Answer) → Prop
  | [] => False
  | ⟨u, .push _ _, (ok : Bool)⟩ :: tr => (u = t ∧ ok = false) ∨ TimedOut t tr
  | ⟨u, .pop _, (r : Bool × Word)⟩ :: tr => (u = t ∧ r.1 = false) ∨ TimedOut t tr

/-- Core `t` has made no call that tells. -/
structure Silent (t : Core) (s s' : Recorded) : Prop where
  sent : sent t s'.2 = sent t s.2
  received : received t s'.2 = received t s.2
  timedOut : TimedOut t s'.2 ↔ TimedOut t s.2

section Calls

variable {depth : ℕ} {t u : Core} {s s' : Recorded}

theorem Silent.of_ne {e : FifoOp} {r : e.Answer} (h : t ≠ u)
    (ha : (channels depth).recorded.access t e s r s') : Silent u s s' := by
  obtain ⟨q, tr⟩ := s
  obtain ⟨q', tr'⟩ := s'
  obtain ⟨-, htr⟩ := ha
  dsimp only at htr
  subst htr
  cases e with
  | push v timeoutUs =>
    exact ⟨if_neg fun hc => h hc.1, rfl, or_iff_right fun hc => h hc.1⟩
  | pop timeoutUs =>
    exact ⟨rfl, if_neg fun hc => h hc.1, or_iff_right fun hc => h hc.1⟩

/-- What a push leaves on record of its own core. -/
theorem push_record {v timeoutUs : Word} {ok : Bool}
    (ha : (channels depth).recorded.access t (.push v timeoutUs) s ok s') :
    sent t s'.2 = sent t s.2 ++ (if ok then [v] else []) ∧ received t s'.2 = received t s.2 ∧
      (TimedOut t s'.2 ↔ ok = false ∨ TimedOut t s.2) := by
  rw [ha.2]
  refine ⟨?_, rfl, ?_⟩
  · cases ok <;> simp [sent]
  · simp [TimedOut]

/-- What a pop leaves on record of its own core. -/
theorem pop_record {timeoutUs : Word} {r : Bool × Word}
    (ha : (channels depth).recorded.access t (.pop timeoutUs) s r s') :
    sent t s'.2 = sent t s.2 ∧
      received t s'.2 = received t s.2 ++ (if r.1 then [r.2] else []) ∧
      (TimedOut t s'.2 ↔ r.1 = false ∨ TimedOut t s.2) := by
  rw [ha.2]
  obtain ⟨ok, v⟩ := r
  refine ⟨rfl, ?_, ?_⟩
  · cases ok <;> simp [received]
  · simp [TimedOut]

end Calls

/-! ### The protocol -/

/-- What core 1 has sent answers some of what it has received, in order. -/
def Echoing (s : Recorded) : Prop :=
  List.Sublist (sent .core1 s.2) ((received .core1 s.2).map (· + 1#32))

theorem Silent.echoing {s s' : Recorded} (h : Silent .core1 s s') (he : Echoing s) :
    Echoing s' := by
  rw [Echoing, h.sent, h.received]
  exact he

/-- The words are in order, with nothing on the way at the start, and core 1 echoes. -/
def Fair (s : Recorded) : Prop := InOrder (fun _ => []) s ∧ Echoing s

/-- Core 0 has received no word that does not answer one of its own. -/
theorem Fair.sublist {s : Recorded} (h : Fair s) :
    List.Sublist (received .core0 s.2) ((sent .core0 s.2).map (· + 1#32)) := by
  have h₀ : sent .core1 s.2 = received .core0 s.2 ++ s.1 .core0 := h.1 .core0
  have h₁ : sent .core0 s.2 = received .core1 s.2 ++ s.1 .core1 := h.1 .core1
  calc List.Sublist (received .core0 s.2) (sent .core1 s.2) := by
        rw [h₀]
        exact List.sublist_append_left _ _
    List.Sublist _ ((received .core1 s.2).map (· + 1#32)) := h.2
    List.Sublist _ ((sent .core0 s.2).map (· + 1#32)) := by
        rw [h₁, List.map_append]
        exact List.sublist_append_left _ _

/-- Each core on its own record, and core 1 echoing. -/
def recordProtocol (depth : ℕ) : Protocol (channels depth).recorded where
  rely t s s' := Silent t s s' ∧ (Fair s → Fair s')
  guar _ _ s _ s' := Echoing s → Echoing s'
  guar_rely := fun htu ha hg => ⟨.of_ne htu ha, fun hf => ⟨hf.1.access ha, hg hf.2⟩⟩
  env_rely := fun h => absurd h.1 id

section Triples

variable {depth : ℕ}

/-! ### Core 1 -/

theorem stable_core1 {P : List Word → List Word → Prop} :
    Stable (recordProtocol depth) .core1 fun s => P (sent .core1 s.2) (received .core1 s.2) := by
  intro s s' hr hP
  rw [hr.1.sent, hr.1.received]
  exact hP

/-- The loop of core 1 sends a word back for each word it gets, or none if there is no room. -/
theorem echo_spec :
    Triple (recordProtocol depth) .core1 Echoing echo fun _ _ => True := by
  have hst : Stable (recordProtocol depth) .core1 Echoing :=
    stable_core1 (P := fun xs ys => List.Sublist xs (ys.map (· + 1#32)))
  -- a word has been taken and not been answered
  have hstK : ∀ v, Stable (recordProtocol depth) .core1 fun s =>
      ∃ ys, received .core1 s.2 = ys ++ [v] ∧ List.Sublist (sent .core1 s.2) (ys.map (· + 1#32)) :=
    fun v => stable_core1
      (P := fun xs zs => ∃ ys, zs = ys ++ [v] ∧ List.Sublist xs (ys.map (· + 1#32)))
  refine Triple.loop (I := fun _ => Echoing) (J := fun _ _ => True) (fun _ => hst)
    (fun _ _ _ _ _ => trivial) (fun _ => ?_) ()
  refine Triple.op (e := FifoOp.pop 1000000#32) (P := Echoing)
    (K := fun (r : Bool × Word) s => if r.1 then ∃ ys, received .core1 s.2 = ys ++ [r.2] ∧
      List.Sublist (sent .core1 s.2) (ys.map (· + 1#32)) else Echoing s) hst ?_ ?_
  · intro s (r : Bool × Word) s' hs ha
    obtain ⟨hsent, hreceived, -⟩ := pop_record ha
    refine ⟨fun he => ?_, ?_⟩
    · rw [Echoing, hsent, hreceived, List.map_append]
      exact he.trans (List.sublist_append_left _ _)
    · obtain ⟨ok, v⟩ := r
      cases ok with
      | false =>
        rw [if_neg Bool.false_ne_true, Echoing, hsent, hreceived, if_neg Bool.false_ne_true,
          List.append_nil]
        exact hs
      | true =>
        rw [if_pos rfl] at hreceived
        rw [if_pos rfl]
        exact ⟨_, hreceived, by rw [hsent]; exact hs⟩
  · intro (r : Bool × Word)
    obtain ⟨ok, v⟩ := r
    cases ok with
    | false => exact Triple.ret hst fun s hs => hs
    | true =>
      refine Triple.op (e := FifoOp.push (v + 1#32) 1000000#32) (K := fun _ => Echoing) (hstK v) ?_
        fun _ => Triple.ret hst fun s hs => hs
      rintro s (ok : Bool) s' ⟨ys, hys, hsub⟩ ha
      obtain ⟨hsent, hreceived, -⟩ := push_record ha
      have he : Echoing s' := by
        rw [Echoing, hsent, hreceived, hys, List.map_append]
        refine hsub.append ?_
        cases ok
        · exact List.nil_sublist _
        · exact List.Sublist.refl _
      exact ⟨fun _ => he, he⟩

/-! ### Core 0 -/

/-- Core 0 has sent `vs`, the answers to all but the last `n` of them have come, and no call has
timed out. -/
def Exchanged (vs : List Word) (n : ℕ) (s : Recorded) : Prop :=
  Fair s ∧ sent .core0 s.2 = vs ∧
    received .core0 s.2 = (vs.take (vs.length - n)).map (· + 1#32) ∧ ¬ TimedOut .core0 s.2

/-- The verdict: all words have come back one more, or a call has timed out. -/
def Verdict (vs : List Word) (b : Bool) (s : Recorded) : Prop :=
  if b then Exchanged vs 0 s else TimedOut .core0 s.2

theorem Exchanged.stable (vs : List Word) (n : ℕ) :
    Stable (recordProtocol depth) .core0 (Exchanged vs n) := by
  rintro s s' ⟨hsilent, hfair⟩ ⟨hf, hsent, hreceived, hok⟩
  refine ⟨hfair hf, hsilent.sent.trans hsent, hsilent.received.trans hreceived, ?_⟩
  rwa [hsilent.timedOut]

theorem TimedOut.stable :
    Stable (recordProtocol depth) .core0 fun s => TimedOut .core0 s.2 :=
  fun _ _ hr h => hr.1.timedOut.mpr h

theorem Verdict.stable (vs : List Word) (b : Bool) :
    Stable (recordProtocol depth) .core0 (Verdict vs b) := by
  cases b
  · exact TimedOut.stable
  · exact Exchanged.stable vs 0

/-- Whatever core 0 calls, core 1 goes on echoing. -/
theorem Fair.access {e : FifoOp} {r : e.Answer} {s s' : Recorded} (h : Fair s)
    (ha : (channels depth).recorded.access .core0 e s r s') : Fair s' :=
  ⟨h.1.access ha, (Silent.of_ne (by decide) ha).echoing h.2⟩

/-- The word that comes is the one that is expected. -/
theorem Exchanged.next {done : List Word} {v r : Word} {s : Recorded} (hf : Fair s)
    (hsent : sent .core0 s.2 = done ++ [v])
    (hreceived : received .core0 s.2 = done.map (· + 1#32) ++ [r]) : r = v + 1#32 := by
  have hsub := hf.sublist
  rw [hsent, hreceived, List.map_append, List.map_singleton] at hsub
  have heq := hsub.eq_of_length (by simp)
  exact List.singleton_injective (List.append_cancel_left heq)

theorem pingpong_spec (vs : List Word) : ∀ done,
    Triple (recordProtocol depth) .core0 (Exchanged done 0) (pingpong vs)
      (Verdict (done ++ vs)) := by
  induction vs with
  | nil =>
    intro done
    rw [List.append_nil]
    exact Triple.ret (Exchanged.stable done 0) fun s hs => hs
  | cons v vs ih =>
    intro done
    refine Triple.op (e := FifoOp.push v 100000#32) (P := Exchanged done 0)
      (K := fun (ok : Bool) s => if ok then Exchanged (done ++ [v]) 1 s else TimedOut .core0 s.2)
      (Exchanged.stable done 0) ?_ ?_
    · rintro s (ok : Bool) s' ⟨hf, hsent, hreceived, hok⟩ ha
      have hf' : Fair s' := hf.access ha
      obtain ⟨hsent', hreceived', htimed⟩ := push_record ha
      refine ⟨fun _ => hf'.2, ?_⟩
      cases ok with
      | false => exact htimed.mpr (.inl rfl)
      | true =>
        refine ⟨hf', ?_, ?_, ?_⟩
        · rw [hsent', hsent, if_pos rfl]
        · rw [hreceived', hreceived]
          simp
        · rw [htimed]
          simp [hok]
    · intro (ok : Bool)
      cases ok with
      | false => exact Triple.ret TimedOut.stable fun s hs => hs
      | true =>
        refine Triple.op (e := FifoOp.pop 100000#32) (P := Exchanged (done ++ [v]) 1)
          (K := fun (r : Bool × Word) s =>
            if r.1 then r.2 = v + 1#32 ∧ Exchanged (done ++ [v]) 0 s else TimedOut .core0 s.2)
          (Exchanged.stable _ 1) ?_ ?_
        · rintro s ⟨ok, r⟩ s' ⟨hf, hsent, hreceived, hok⟩ ha
          have hf' : Fair s' := hf.access ha
          obtain ⟨hsent', hreceived', htimed⟩ := pop_record ha
          refine ⟨fun _ => hf'.2, ?_⟩
          cases ok with
          | false => exact htimed.mpr (.inl rfl)
          | true =>
            rw [hsent] at hsent'
            rw [hreceived, if_pos rfl] at hreceived'
            simp only [List.length_append, List.length_singleton, Nat.add_sub_cancel,
              List.take_left] at hreceived'
            obtain rfl := Exchanged.next hf' hsent' hreceived'
            refine ⟨rfl, hf', hsent', ?_, ?_⟩
            · rw [hreceived']
              simp
            · rw [htimed]
              simp [hok]
        · rintro ⟨ok, r⟩
          cases ok with
          | false => exact Triple.ret TimedOut.stable fun s hs => hs
          | true =>
            refine Triple.assume fun hr => ?_
            dsimp only at hr
            subst hr
            have hrest := ih (done ++ [v])
            rw [List.append_assoc, List.singleton_append] at hrest
            change Triple _ _ _ (if (!true || v + 1#32 != v + 1#32) = true then .ret false
              else pingpong vs) _
            rw [if_neg (by simp)]
            exact hrest

end Triples

end Multicore
