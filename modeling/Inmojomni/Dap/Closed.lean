import Inmojomni.Dap.Framing
import Mathlib.Data.Nat.Cast.Order.Ring

/-!
# A debug server that goes away

When the peer closes the connection, `recv` answers with no bytes from then on, and the loops of
`_read_msg` go on receiving nothing. The deadline is only looked at between two messages. So a call
that waits for a message that does not come raises if the deadline is over before it begins to read
the message that is cut off, or if a call of `recv` has timed out, and else it never ends
(`raises_iff_late`).
-/

open Effect

namespace Dap

/-- A message that `_dispatch` accepts. -/
structure Msg.WellFormed (msg : Msg) : Prop where
  type : msg.type ≠ none
  event : msg.type = some "event" → msg.event ≠ none

def Msg.Responds (msg : Msg) (reqSeq : ℤ) : Prop :=
  msg.type = some "response" ∧ msg.requestSeq = some reqSeq

def Msg.IsEvent (msg : Msg) (name : String) : Prop :=
  msg.type = some "event" ∧ msg.event = some name

variable {loads : Bytes → Except Error Msg}

/-- How many messages are there as a whole in the first `n` bytes of their stream. -/
def whole : List (Message loads) → ℕ → ℕ
  | [], _ => 0
  | m :: ms, n =>
    if (frame m.raw).length ≤ n then whole ms (n - (frame m.raw).length) + 1 else 0

/-- A message that is there as a whole, and what is there behind it. -/
theorem exists_behind {m : Message loads} {ms : List (Message loads)} {s : Bytes}
    (hpart : s <+: stream (m :: ms)) (hwhole : (frame m.raw).length ≤ s.length) :
    ∃ t, s = frame m.raw ++ t ∧ t <+: stream ms ∧
      whole (m :: ms) s.length = whole ms t.length + 1 := by
  rw [stream_cons] at hpart
  obtain ⟨t, rfl⟩ := List.prefix_of_prefix_length_le (List.prefix_append _ _) hpart hwhole
  refine ⟨t, rfl, (List.prefix_append_right_inj _).mp hpart, ?_⟩
  rw [whole, if_pos hwhole, List.length_append, Nat.add_sub_cancel_left]

/-- The next message is cut off. -/
theorem prefix_frame {m : Message loads} {ms : List (Message loads)} {s : Bytes}
    (hpart : s <+: stream (m :: ms)) (hcut : s.length < (frame m.raw).length) :
    s <+: frame m.raw ∧ whole (m :: ms) s.length = 0 := by
  rw [stream_cons] at hpart
  refine ⟨List.prefix_of_prefix_length_le hpart (List.prefix_append _ _) hcut.le, ?_⟩
  rw [whole, if_neg (not_le.mpr hcut)]

/-- The loop gives up before it begins to read message `n`. For each message it reads the clock
twice, for its condition and for the time that is left. -/
def GivesUp (deadline : ℚ) (clock : ℕ → ℚ) (n : ℕ) : Prop :=
  ∃ i ≤ n, deadline ≤ clock (2 * i) ∨ deadline < clock (2 * i + 1)

/-- The same for a call, which first reads the clock for the deadline. -/
def Late (timeout : ℚ) (clock : ℕ → ℚ) (n : ℕ) : Prop :=
  ∃ i ≤ n, clock 0 + timeout ≤ clock (2 * i + 1) ∨ clock 0 + timeout < clock (2 * i + 2)

theorem givesUp_succ {deadline : ℚ} {clock : ℕ → ℚ} {n : ℕ} : GivesUp deadline clock (n + 1) ↔
    (deadline ≤ clock 0 ∨ deadline < clock 1) ∨
      GivesUp deadline (fun k => clock (k + 1 + 1)) n := by
  constructor
  · rintro ⟨i, hi, h⟩
    cases i with
    | zero => exact .inl h
    | succ i => exact .inr ⟨i, Nat.le_of_succ_le_succ hi, h⟩
  · rintro (h | ⟨i, hi, h⟩)
    · exact ⟨0, Nat.zero_le _, h⟩
    · exact ⟨i + 1, Nat.succ_le_succ hi, h⟩

theorem givesUp_zero {deadline : ℚ} {clock : ℕ → ℚ} :
    GivesUp deadline clock 0 ↔ deadline ≤ clock 0 ∨ deadline < clock 1 := by
  constructor
  · rintro ⟨i, hi, h⟩
    obtain rfl := Nat.le_zero.mp hi
    exact h
  · exact fun h => ⟨0, le_rfl, h⟩

theorem givesUp_of_first {deadline : ℚ} {clock : ℕ → ℚ} {n : ℕ}
    (h : deadline ≤ clock 0 ∨ deadline < clock 1) : GivesUp deadline clock n :=
  ⟨0, Nat.zero_le _, h⟩

/-! ### One round -/

section Round

variable {γ : Type} {deadline : ℚ} {waiting : Dap → Bool}
  {handle : Msg → Dap → Except Error (Dap ⊕ γ)} {d : Dap} {inbox : List (Option Bytes)}
  {clock : ℕ → ℚ}

theorem readMsg_negative {timeout : ℚ} (h : timeout < 0) (w : World) :
    Raises answer (readMsg loads timeout d) w := by
  have hset : Yields answer (attempt (Op.settimeout timeout)) w _ _ := yields_attempt _ w
  rw [answer, if_pos h] at hset
  exact Raises.first ⟨_, _, hset⟩

/-- The deadline is over. -/
theorem awaitRound_over (hwait : waiting d = true) (h : deadline ≤ clock 0) :
    Yields answer (awaitRound loads deadline waiting handle d) ⟨inbox, clock⟩ (.ok (.inr (.inl d)))
      ⟨inbox, fun k => clock (k + 1)⟩ := by
  rw [awaitRound, if_pos hwait]
  refine (yields_attempt Op.monotonic _).bind ?_
  rw [if_neg (not_lt.mpr h)]
  exact yields_pure _ _

/-- Otherwise the round begins with two readings of the clock. -/
theorem awaitRound_raises (hwait : waiting d = true) (h : clock 0 < deadline)
    (hread : Raises answer (readMsg loads (deadline - clock 1) d)
      ⟨inbox, fun k => clock (k + 1 + 1)⟩) :
    Raises answer (awaitRound loads deadline waiting handle d) ⟨inbox, clock⟩ := by
  rw [awaitRound, if_pos hwait]
  refine Raises.bind (yields_attempt Op.monotonic _) ?_
  rw [if_pos h]
  exact Raises.bind (yields_attempt Op.monotonic _) hread.first

theorem awaitRound_diverges (hwait : waiting d = true) (h : clock 0 < deadline)
    (hread : Diverges answer (readMsg loads (deadline - clock 1) d)
      ⟨inbox, fun k => clock (k + 1 + 1)⟩) :
    Diverges answer (awaitRound loads deadline waiting handle d) ⟨inbox, clock⟩ := by
  rw [awaitRound, if_pos hwait]
  refine Diverges.bind (yields_attempt Op.monotonic _) ?_
  rw [if_pos h]
  exact Diverges.bind (yields_attempt Op.monotonic _) hread.first

theorem awaitRound_goesOn (hwait : waiting d = true) (h : clock 0 < deadline) {msg : Msg}
    {d₁ d₂ : Dap} {w : World} (hread : Yields answer (readMsg loads (deadline - clock 1) d)
      ⟨inbox, fun k => clock (k + 1 + 1)⟩ (.ok (msg, d₁)) w)
    (hhandle : handle msg d₁ = .ok (.inl d₂)) :
    Yields answer (awaitRound loads deadline waiting handle d) ⟨inbox, clock⟩
      (.ok (.inl d₂)) w := by
  have hhandled : Yields answer (Script.except (handle msg d₁)) w (.ok (.inl d₂)) w := by
    rw [hhandle]
    exact yields_except _ _
  rw [awaitRound, if_pos hwait]
  refine (yields_attempt Op.monotonic _).bind ?_
  rw [if_pos h]
  exact (yields_attempt Op.monotonic _).bind (hread.bind (hhandled.bind (yields_pure _ _)))

end Round

/-! ### The wait -/

/-- What a wait does that no message ends. -/
inductive WaitEnds {γ : Type} (x : Client (Dap ⊕ γ)) (w : World) (P : Dap → Prop) : Prop
  | raises (h : Raises answer x w)
  | expires (d : Dap) (w' : World) (h : Yields answer x w (.ok (.inl d)) w') (hd : P d)

section Wait

variable {γ : Type} {deadline : ℚ} {waiting : Dap → Bool}
  {handle : Msg → Dap → Except Error (Dap ⊕ γ)} {P : Dap → Prop}

theorem WaitEnds.of_first {d : Dap} {w : World}
    (h : Raises answer (awaitRound loads deadline waiting handle d) w) :
    WaitEnds (untilDeadline loads deadline waiting handle d) w P :=
  .raises (raises_loop.mpr h.first)

/-- A round more does not change how the wait ends. -/
theorem WaitEnds.of_round {d d₁ : Dap} {w w₁ : World}
    (hround : Yields answer (awaitRound loads deadline waiting handle d) w (.ok (.inl d₁)) w₁)
    (h : WaitEnds (untilDeadline loads deadline waiting handle d₁) w₁ P) :
    WaitEnds (untilDeadline loads deadline waiting handle d) w P := by
  cases h with
  | raises h => exact .raises (raises_loop.mpr (Raises.bind hround h))
  | expires d' w' h hd => exact .expires d' w' (yields_loop.mpr (hround.bind h)) hd

/-- What comes of a wait in which message `n` is the first that is not there as a whole. -/
def WaitOutcome (x : Client (Dap ⊕ γ)) (inbox : List (Option Bytes)) (clock : ℕ → ℚ)
    (P : Dap → Prop) (deadline : ℚ) (n : ℕ) : Prop :=
  (Diverges answer x ⟨inbox, clock⟩ ∧ none ∉ inbox ∧ ¬ GivesUp deadline clock n) ∨
  (WaitEnds x ⟨inbox, clock⟩ P ∧ (none ∈ inbox ∨ GivesUp deadline clock n))

/-- The clock gives the loop up, or there is time left to read the next message. -/
theorem waitOutcome_cases {d : Dap} {inbox : List (Option Bytes)} {clock : ℕ → ℚ} (n : ℕ)
    (hwait : waiting d = true) (hd : P d) :
    WaitOutcome (untilDeadline loads deadline waiting handle d) inbox clock P deadline n ∨
      clock 0 < deadline ∧ 0 ≤ deadline - clock 1 := by
  rcases le_or_gt deadline (clock 0) with hover | hgo
  · have hfirst : GivesUp deadline clock n := givesUp_of_first (.inl hover)
    have hyield : Yields answer (untilDeadline loads deadline waiting handle d) ⟨inbox, clock⟩
        (.ok (.inl d)) ⟨inbox, fun k => clock (k + 1)⟩ :=
      yields_loop.mpr ((awaitRound_over hwait hover).bind (yields_pure _ _))
    exact .inl (.inr ⟨.expires d _ hyield hd, .inr hfirst⟩)
  · rcases lt_or_ge (deadline - clock 1) 0 with hneg | hpos
    · have hfirst : GivesUp deadline clock n := givesUp_of_first (.inr (sub_neg.mp hneg))
      exact .inl (.inr ⟨.of_first (awaitRound_raises hwait hgo (readMsg_negative hneg _)),
        .inr hfirst⟩)
    · exact .inr ⟨hgo, hpos⟩

/-- The next message does not arrive as a whole. -/
theorem waitOutcome_partial {d : Dap} {inbox : List (Option Bytes)} {clock : ℕ → ℚ} (raw : Bytes)
    (hwait : waiting d = true) (hd : P d) (hpart : d.buf ++ delivered inbox <+: frame raw)
    (hproper : (d.buf ++ delivered inbox).length < (frame raw).length) :
    WaitOutcome (untilDeadline loads deadline waiting handle d) inbox clock P deadline 0 := by
  rcases waitOutcome_cases 0 hwait hd with hdone | ⟨hgo, hpos⟩
  · exact hdone
  · have hnot : ¬ GivesUp deadline clock 0 := by
      rw [givesUp_zero, not_or, not_le, not_lt]
      exact ⟨hgo, sub_nonneg.mp hpos⟩
    rcases readMsg_partial loads (fun k => clock (k + 1 + 1)) hpos d rfl hpart
      hproper with ⟨hraise, hmem⟩ | ⟨hdiv, hmem⟩
    · exact .inr ⟨.of_first (awaitRound_raises hwait hgo hraise), .inl hmem⟩
    · exact .inl ⟨diverges_loop.mpr (awaitRound_diverges hwait hgo hdiv).first, hmem, hnot⟩

/-- The next message is read and does not end the wait. -/
theorem waitOutcome_next {d d₁ d₂ : Dap} {inbox inbox₁ : List (Option Bytes)} {clock : ℕ → ℚ}
    {msg : Msg} {n : ℕ} (hwait : waiting d = true) (hgo : clock 0 < deadline)
    (hpos : 0 ≤ deadline - clock 1) (hread : Yields answer (readMsg loads (deadline - clock 1) d)
      ⟨inbox, fun k => clock (k + 1 + 1)⟩ (.ok (msg, d₁)) ⟨inbox₁, fun k => clock (k + 1 + 1)⟩)
    (hhandle : handle msg d₁ = .ok (.inl d₂)) (hmem : none ∈ inbox ↔ none ∈ inbox₁)
    (h : WaitOutcome (untilDeadline loads deadline waiting handle d₂) inbox₁
      (fun k => clock (k + 1 + 1)) P deadline n) :
    WaitOutcome (untilDeadline loads deadline waiting handle d) inbox clock P deadline (n + 1) := by
  have hround := awaitRound_goesOn hwait hgo hread hhandle
  have hnot : ¬ (deadline ≤ clock 0 ∨ deadline < clock 1) := by
    rw [not_or, not_le, not_lt]
    exact ⟨hgo, sub_nonneg.mp hpos⟩
  have hgives : GivesUp deadline clock (n + 1) ↔
      GivesUp deadline (fun k => clock (k + 1 + 1)) n := by
    rw [givesUp_succ, or_iff_right hnot]
  rcases h with ⟨hdiv, hnone, hlate⟩ | ⟨hends, hwhy⟩
  · exact .inl ⟨diverges_loop.mpr (Diverges.bind hround hdiv), mt hmem.mp hnone,
      mt hgives.mp hlate⟩
  · exact .inr ⟨.of_round hround hends, hwhy.imp hmem.mpr hgives.mpr⟩

/-- The induction is on the messages that are still to be read: none of those that are there as a
whole ends the wait, and the next one is not there. -/
theorem untilDeadline_outcome (hwaiting : ∀ d, P d → waiting d = true)
    (hbuf : ∀ d buf, P d → P { d with buf := buf }) (ms : List (Message loads)) (d : Dap)
    (inbox : List (Option Bytes)) (clock : ℕ → ℚ) (hd : P d)
    (hpart : d.buf ++ delivered inbox <+: stream ms)
    (hhandle : ∀ m ∈ ms.take (whole ms (d.buf ++ delivered inbox).length), ∀ d, P d →
      ∃ d', handle m.msg d = .ok (.inl d') ∧ P d' ∧ d'.buf = d.buf) :
    WaitOutcome (untilDeadline loads deadline waiting handle d) inbox clock P deadline
      (whole ms (d.buf ++ delivered inbox).length) := by
  induction ms generalizing d inbox clock with
  | nil =>
    have hnil : d.buf ++ delivered inbox = [] := List.prefix_nil.mp hpart
    refine waitOutcome_partial [] (hwaiting d hd) hd ?_ ?_
    · rw [hnil]
      exact List.nil_prefix
    · rw [hnil]
      decide
  | cons m ms ih =>
    rcases Nat.lt_or_ge (d.buf ++ delivered inbox).length (frame m.raw).length with hcut | hwhole
    · obtain ⟨hframe, hzero⟩ := prefix_frame hpart hcut
      rw [hzero]
      exact waitOutcome_partial m.raw (hwaiting d hd) hd hframe hcut
    · obtain ⟨t, ht, htail, hcount⟩ := exists_behind hpart hwhole
      rw [hcount, List.take_succ_cons] at hhandle
      obtain ⟨hfirst, hothers⟩ := List.forall_mem_cons.mp hhandle
      rw [hcount]
      rcases waitOutcome_cases (whole ms t.length + 1) (hwaiting d hd) hd with hdone | ⟨hgo, hpos⟩
      · exact hdone
      · rcases readMsg_whole (fun k => clock (k + 1 + 1)) m.json hpos d ht with
          ⟨buf, inbox₁, hread, hrest, hsuffix, htimeout⟩ | ⟨hraise, hmem⟩
        · obtain ⟨d₂, hd₂, hP, hsame⟩ := hfirst _ (hbuf d buf hd)
          have hunread : d₂.buf ++ delivered inbox₁ = t := by
            rw [hsame]
            exact hrest
          refine waitOutcome_next (hwaiting d hd) hgo hpos hread hd₂
            ⟨htimeout, fun h => hsuffix.subset h⟩ ?_
          rw [← hunread] at htail hothers ⊢
          exact ih d₂ inbox₁ _ hP htail hothers
        · exact .inr ⟨.of_first (awaitRound_raises (hwaiting d hd) hgo hraise), .inl hmem⟩

/-! ### The calls -/

/-- A call raises if the condition holds, and else it never ends. -/
def Settled {β : Type} (x : Client β) (w : World) (c : Prop) : Prop :=
  (Diverges answer x w ∧ ¬ c) ∨ (Raises answer x w ∧ c)

theorem Settled.raises_iff {β : Type} {x : Client β} {w : World} {c : Prop} (h : Settled x w c) :
    Raises answer x w ↔ c := by
  rcases h with ⟨hdiv, hc⟩ | ⟨hraise, hc⟩
  · exact iff_of_false (fun hraise => hraise.not_diverges hdiv) hc
  · exact iff_of_true hraise hc

theorem Settled.diverges {β : Type} {x : Client β} {w : World} {c : Prop} (h : Settled x w c)
    (hc : ¬ c) : Diverges answer x w :=
  (h.resolve_right fun hraise => hc hraise.2).1

theorem Settled.bind {α β : Type} {x : Client α} {f : α → Client β} {a : α} {w w' : World}
    {c : Prop} (hx : Yields answer x w (.ok a) w') (h : Settled (f a) w' c) :
    Settled (x >>= f) w c :=
  h.imp (fun h => ⟨Diverges.bind hx h.1, h.2⟩) fun h => ⟨Raises.bind hx h.1, h.2⟩

/-- After a wait that no message ends the call raises. -/
theorem WaitOutcome.settled {β : Type} {x : Client (Dap ⊕ γ)} {f : Dap ⊕ γ → Client β}
    {inbox : List (Option Bytes)} {clock : ℕ → ℚ} {n : ℕ}
    (h : WaitOutcome x inbox clock P deadline n)
    (hover : ∀ d w, P d → Raises answer (f (.inl d)) w) :
    Settled (x >>= f) ⟨inbox, clock⟩ (none ∈ inbox ∨ GivesUp deadline clock n) := by
  rcases h with ⟨hdiv, hnone, hlate⟩ | ⟨hends, hwhy⟩
  · exact .inl ⟨hdiv.first, not_or.mpr ⟨hnone, hlate⟩⟩
  · refine .inr ⟨?_, hwhy⟩
    cases hends with
    | raises h => exact h.first
    | expires d w h hd => exact Raises.bind h (hover d w hd)

end Wait

/-- A message with a type is put where it belongs. -/
theorem dispatch_eq_ok {msg : Msg} (h : msg.type ≠ none) (d : Dap) : ∃ d', dispatch msg d = .ok d' ∧
    d'.buf = d.buf ∧
    ∀ reqSeq, ¬ msg.Responds reqSeq → d'.responses (some reqSeq) = d.responses (some reqSeq) := by
  obtain ⟨type, htype⟩ := Option.ne_none_iff_exists'.mp h
  have heq : dispatch msg d = if type = "event" then .ok { d with events := d.events ++ [msg] }
      else if type = "response" then
        .ok { d with responses := Function.update d.responses msg.requestSeq (some msg) }
      else .ok d := by
    rw [dispatch, htype]
    rfl
  rw [heq]
  split_ifs with hevent hresponse
  · exact ⟨_, rfl, rfl, fun _ _ => rfl⟩
  · refine ⟨_, rfl, rfl, fun reqSeq hnot => Function.update_of_ne (fun hseq => ?_) _ _⟩
    exact hnot ⟨by rw [htype, hresponse], hseq.symm⟩
  · exact ⟨_, rfl, rfl, fun _ _ => rfl⟩

/-- Another message goes on to `_dispatch`. -/
theorem matchEvent_eq {name : String} {msg : Msg} (hwell : msg.WellFormed) (h : ¬ msg.IsEvent name)
    (d : Dap) : matchEvent name msg d = (dispatch msg d).map .inl := by
  obtain ⟨type, htype⟩ := Option.ne_none_iff_exists'.mp hwell.type
  by_cases hevent : type = "event"
  · subst hevent
    obtain ⟨event, hname⟩ := Option.ne_none_iff_exists'.mp (hwell.event htype)
    have hne : (event == name) = false := beq_eq_false_iff_ne.mpr fun heq => h ⟨htype, heq ▸ hname⟩
    simp [matchEvent, htype, hname, field, hne, Except.map, bind, Except.bind, pure, Except.pure]
  · simp [matchEvent, htype, field, hevent, Except.map, bind, Except.bind, pure, Except.pure]

theorem popEvent_eq_none {name : String} {events : List Msg}
    (h : ∀ ev ∈ events, ∃ other ≠ name, ev.event = some other) :
    popEvent name events = .ok none := by
  induction events with
  | nil => rfl
  | cons ev events ih =>
    obtain ⟨⟨other, hother, hev⟩, hevents⟩ := List.forall_mem_cons.mp h
    rw [popEvent, hev, field]
    change (if other = name then _ else _) = _
    rw [if_neg hother, ih hevents]
    rfl

section Calls

variable {ms : List (Message loads)} {d : Dap} {inbox : List (Option Bytes)} {clock : ℕ → ℚ}
  {timeout : ℚ}

theorem waitResponse_settled {reqSeq : ℤ} (hwell : ∀ m ∈ ms, m.msg.WellFormed)
    (hpart : d.buf ++ delivered inbox <+: stream ms) (hbefore : d.responses (some reqSeq) = none)
    (hbeyond : ∀ m ∈ ms.take (whole ms (d.buf ++ delivered inbox).length),
      ¬ m.msg.Responds reqSeq) :
    Settled (waitResponse loads reqSeq timeout d) ⟨inbox, clock⟩
      (none ∈ inbox ∨ Late timeout clock (whole ms (d.buf ++ delivered inbox).length)) := by
  refine Settled.bind (yields_attempt Op.monotonic _) ?_
  refine WaitOutcome.settled (P := fun d => d.responses (some reqSeq) = none)
    (untilDeadline_outcome (fun d hd => ?_) (fun d buf hd => hd) ms d inbox _ hbefore hpart ?_) ?_
  · rw [hd]
    rfl
  · intro m hm d hd
    obtain ⟨d', hdispatch, hbuf, hsame⟩ := dispatch_eq_ok (hwell m (List.mem_of_mem_take hm)).type d
    refine ⟨d', ?_, (hsame reqSeq (hbeyond m hm)).trans hd, hbuf⟩
    rw [hdispatch]
    rfl
  · intro d w hd
    change Raises answer (popResponse reqSeq d) w
    rw [popResponse, hd]
    exact ⟨_, _, yields_throw _ _⟩

theorem waitEvent_settled {name : String} (hwell : ∀ m ∈ ms, m.msg.WellFormed)
    (hpart : d.buf ++ delivered inbox <+: stream ms)
    (hbefore : ∀ ev ∈ d.events, ∃ other ≠ name, ev.event = some other)
    (hbeyond : ∀ m ∈ ms.take (whole ms (d.buf ++ delivered inbox).length), ¬ m.msg.IsEvent name) :
    Settled (waitEvent loads name timeout d) ⟨inbox, clock⟩
      (none ∈ inbox ∨ Late timeout clock (whole ms (d.buf ++ delivered inbox).length)) := by
  have hpop : Yields answer (Script.except (popEvent name d.events)) ⟨inbox, clock⟩ (.ok none)
      ⟨inbox, clock⟩ := by
    rw [popEvent_eq_none hbefore]
    exact yields_except _ _
  refine Settled.bind hpop (Settled.bind (yields_attempt Op.monotonic _) ?_)
  refine WaitOutcome.settled (P := fun _ => True)
    (untilDeadline_outcome (fun _ _ => rfl) (fun _ _ _ => trivial) ms d inbox _ trivial hpart ?_) ?_
  · intro m hm d _
    have hm' := hwell m (List.mem_of_mem_take hm)
    obtain ⟨d', hdispatch, hbuf, -⟩ := dispatch_eq_ok hm'.type d
    refine ⟨d', ?_, trivial, hbuf⟩
    rw [matchEvent_eq hm' (hbeyond m hm), hdispatch]
    rfl
  · exact fun d w _ => ⟨_, _, yields_throw _ _⟩

end Calls

/-- **A closed server.** Once the peer has closed the connection behind a prefix of a stream, a call
that waits for a message behind it raises exactly if a call of `recv` times out or the deadline is
over before it begins to read the message that is cut off. -/
theorem raises_iff_late (loads : Bytes → Except Error Msg) (ms : List (Message loads))
    (hwell : ∀ m ∈ ms, m.msg.WellFormed) (d : Dap) (inbox : List (Option Bytes))
    (hpart : d.buf ++ delivered inbox <+: stream ms) (clock : ℕ → ℚ) (timeout : ℚ) :
    (∀ reqSeq, d.responses (some reqSeq) = none →
      (∀ m ∈ ms.take (whole ms (d.buf ++ delivered inbox).length), ¬ m.msg.Responds reqSeq) →
      (Raises answer (waitResponse loads reqSeq timeout d) ⟨inbox, clock⟩ ↔
        none ∈ inbox ∨ Late timeout clock (whole ms (d.buf ++ delivered inbox).length))) ∧
    (∀ name, (∀ ev ∈ d.events, ∃ other ≠ name, ev.event = some other) →
      (∀ m ∈ ms.take (whole ms (d.buf ++ delivered inbox).length), ¬ m.msg.IsEvent name) →
      (Raises answer (waitEvent loads name timeout d) ⟨inbox, clock⟩ ↔
        none ∈ inbox ∨ Late timeout clock (whole ms (d.buf ++ delivered inbox).length))) :=
  ⟨fun _ hbefore hbeyond => (waitResponse_settled hwell hpart hbefore hbeyond).raises_iff,
    fun _ hbefore hbeyond => (waitEvent_settled hwell hpart hbefore hbeyond).raises_iff⟩

/-- The response to request 1 comes, and then the peer closes in the middle of the next message. -/
theorem raises_iff_late_partial :
    (Raises answer (waitResponse loadsResponse 2 60 init)
        ⟨[some ((stream [emptyObject, emptyObject]).take 25)], fun _ => 0⟩ ↔
      none ∈ [some ((stream [emptyObject, emptyObject]).take 25)] ∨
        Late 60 (fun _ => 0) (whole [emptyObject, emptyObject] 25)) ∧
    (Raises answer (waitEvent loadsResponse "initialized" 60 init)
        ⟨[some ((stream [emptyObject, emptyObject]).take 25)], fun _ => 0⟩ ↔
      none ∈ [some ((stream [emptyObject, emptyObject]).take 25)] ∨
        Late 60 (fun _ => 0) (whole [emptyObject, emptyObject] 25)) := by
  have hwell : emptyObject.msg.WellFormed :=
    ⟨Option.some_ne_none _, fun h => absurd (Option.some.inj h) (by decide)⟩
  have hnone : ∀ ev ∈ init.events, ∃ other ≠ "initialized", ev.event = some other :=
    fun ev hev => absurd hev List.not_mem_nil
  have hall : ∀ m ∈ [emptyObject, emptyObject], m = emptyObject := by simp
  obtain ⟨hresponse, hevent⟩ := raises_iff_late loadsResponse [emptyObject, emptyObject]
    (fun m hm => hall m hm ▸ hwell) init [some ((stream [emptyObject, emptyObject]).take 25)]
    (by simpa [init, delivered] using List.take_prefix _ _) (fun _ => 0) 60
  have hlen : (init.buf ++ delivered [some ((stream [emptyObject, emptyObject]).take 25)]).length =
      25 := by decide
  rw [hlen] at hresponse hevent
  refine ⟨hresponse 2 rfl fun m hm => ?_, hevent "initialized" hnone fun m hm => ?_⟩
  · rw [hall m (List.mem_of_mem_take hm)]
    exact fun h => absurd h.2 (by decide)
  · rw [hall m (List.mem_of_mem_take hm)]
    exact fun h => absurd h.1 (by decide)

/-- If the server closes at once, no deadline ends the wait. -/
theorem waits_forever : init.buf ++ delivered [] <+: stream [emptyObject] ∧
    Diverges answer (waitResponse loadsResponse 1 60 init) ⟨[], fun _ => 0⟩ ∧
    Diverges answer (waitEvent loadsResponse "initialized" 60 init) ⟨[], fun _ => 0⟩ := by
  have hwell : ∀ m ∈ ([] : List (Message loadsResponse)), m.msg.WellFormed := fun _ hm =>
    absurd hm List.not_mem_nil
  have hpart : init.buf ++ delivered [] <+: stream ([] : List (Message loadsResponse)) :=
    List.prefix_rfl
  have hon : ¬ (none ∈ ([] : List (Option Bytes)) ∨ Late 60 (fun _ => 0)
      (whole ([] : List (Message loadsResponse)) (init.buf ++ delivered []).length)) := by
    rintro (h | ⟨i, -, h⟩)
    · exact List.not_mem_nil h
    · have hpos : (0 : ℚ) < 60 := Nat.ofNat_pos
      simp only [zero_add] at h
      exact h.elim hpos.not_ge hpos.not_gt
  have hsent : init.buf ++ delivered [] <+: stream [emptyObject] := by
    rw [init, List.nil_append]
    exact List.nil_prefix
  refine ⟨hsent, ?_, ?_⟩
  · refine Settled.diverges (waitResponse_settled hwell hpart rfl ?_) hon
    exact fun _ hm => absurd hm List.not_mem_nil
  · refine Settled.diverges (waitEvent_settled hwell hpart ?_ ?_) hon
    · exact fun _ hev => absurd hev List.not_mem_nil
    · exact fun _ hm => absurd hm List.not_mem_nil

end Dap
