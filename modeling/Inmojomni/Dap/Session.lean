import Inmojomni.Dap.Closed

/-!
# Sessions

A debug session is a sequence of calls on one connection. Messages come when the server sends them,
and a call may find others before the one that it waits for: an event goes into the queue `events`,
a response is filed in `responses` under the request it answers. `session_exact` accounts for every
message that has been received, whatever the calls are and however the stream is cut: each event is
still in the queue or has been taken out, once, and those of one name in the order in which they
have come; of the responses to a request, the last one is filed or has been taken out.

The invariant is `Kept`, between the messages received, those taken out and the client. A call that
waits for an event looks at the queue first, so that while it reads the stream the queue has no
event of this name: this is why handing out a new one keeps the order.
-/

open Effect

namespace Dap

/-- `[e for e in events if e["event"] != name]` -/
def otherEvents (name : String) : List Msg → Except Error (List Msg)
  | [] => return []
  | ev :: events => do
    let event ← field "event" ev.event
    let others ← otherEvents name events
    return if event != name then ev :: others else others

/-- The assignment to `dap.events` in `continue_to_stop`. -/
def dropEvents (name : String) (d : Dap) : Except Error Dap := do
  return { d with events := ← otherEvents name d.events }

/-- What a session does with the client. -/
inductive Call
  | send
  | waitResponse (reqSeq : ℤ)
  | waitEvent (name : String)
  | dropEvents (name : String)

/-- What may be taken out by a call. -/
def Call.Takes : Call → List Msg → Prop
  | .send, out => out = []
  | .waitResponse reqSeq, out => ∃ msg : Msg, out = [msg] ∧ msg.Responds reqSeq ∧ msg.success = true
  | .waitEvent name, out => ∃ msg : Msg, out = [msg] ∧ msg.IsEvent name
  | .dropEvents name, out => ∀ msg ∈ out, msg.IsEvent name

instance (msg : Msg) (name : String) : Decidable (msg.IsEvent name) :=
  inferInstanceAs (Decidable (_ ∧ _))

instance (msg : Msg) (reqSeq : ℤ) : Decidable (msg.Responds reqSeq) :=
  inferInstanceAs (Decidable (_ ∧ _))

/-- Calls that return, with the messages that each takes out. -/
inductive Session {J : Type} (loads : Bytes → Except Error Msg) (dumps : Request J → Bytes)
    (w₀ : World) : List (Call × List Msg) → Dap → World → Prop
  | start : Session loads dumps w₀ [] init w₀
  | send {log d w command arguments seq d' w'} (h : Session loads dumps w₀ log d w)
      (hret : Returns (answers answer) (send dumps command arguments d) w (seq, d') w') :
      Session loads dumps w₀ (log ++ [(.send, [])]) d' w'
  | waitResponse {log d w reqSeq timeout msg d' w'} (h : Session loads dumps w₀ log d w)
      (hret : Returns (answers answer) (waitResponse loads reqSeq timeout d) w (msg, d') w') :
      Session loads dumps w₀ (log ++ [(.waitResponse reqSeq, [msg])]) d' w'
  | waitEvent {log d w name timeout msg d' w'} (h : Session loads dumps w₀ log d w)
      (hret : Returns (answers answer) (waitEvent loads name timeout d) w (msg, d') w') :
      Session loads dumps w₀ (log ++ [(.waitEvent name, [msg])]) d' w'
  | dropEvents {log d w name d'} (h : Session loads dumps w₀ log d w)
      (hret : dropEvents name d = .ok d') :
      Session loads dumps w₀
        (log ++ [(.dropEvents name, d.events.filter (·.IsEvent name))]) d' w

/-- All messages that have been taken out, in order. -/
def taken (log : List (Call × List Msg)) : List Msg := log.flatMap Prod.snd

/-! ### What the client keeps -/

/-- The messages received are those that have been taken out, those in the queue, and responses of
which only the last for each request is filed. -/
structure Kept (received taken queue : List Msg) (file : Option ℤ → Option Msg) : Prop where
  queued : ∀ ev ∈ queue, ∃ name, ev.IsEvent name
  filed : ∀ reqSeq msg, file (some reqSeq) = some msg → msg.Responds reqSeq
  events : ∀ name, taken.filter (·.IsEvent name) ++ queue.filter (·.IsEvent name) =
    received.filter (·.IsEvent name)
  responses : ∀ reqSeq, (taken.filter (·.Responds reqSeq) ++
    (file (some reqSeq)).toList).Sublist (received.filter (·.Responds reqSeq))
  last : ∀ reqSeq, (taken.filter (·.Responds reqSeq) ++ (file (some reqSeq)).toList).getLast? =
    (received.filter (·.Responds reqSeq)).getLast?

theorem kept_init : Kept [] [] init.events init.responses where
  queued _ h := absurd h List.not_mem_nil
  filed _ _ h := absurd h (Option.some_ne_none _).symm
  events _ := rfl
  responses _ := List.Sublist.refl _
  last _ := rfl

section Kept

variable {received taken queue : List Msg} {file : Option ℤ → Option Msg} {msg : Msg}

theorem Msg.IsEvent.not_responds {name : String} (h : msg.IsEvent name) (reqSeq : ℤ) :
    ¬ msg.Responds reqSeq := fun hres =>
  absurd (Option.some.inj (h.1.symm.trans hres.1)) (by decide)

theorem filter_concat_of_not {p : Msg → Prop} [DecidablePred p] (h : ¬ p msg) (l : List Msg) :
    (l ++ [msg]).filter (p ·) = l.filter (p ·) := by
  rw [List.filter_append, List.filter_singleton, decide_eq_false h]
  exact List.append_nil _

theorem filter_concat_of {p : Msg → Prop} [DecidablePred p] (h : p msg) (l : List Msg) :
    (l ++ [msg]).filter (p ·) = l.filter (p ·) ++ [msg] := by
  rw [List.filter_append, List.filter_singleton, decide_eq_true h]
  rfl

/-- An event that comes is queued. -/
theorem Kept.enqueue (h : Kept received taken queue file) {name : String}
    (hev : msg.IsEvent name) : Kept (received ++ [msg]) taken (queue ++ [msg]) file where
  queued := List.forall_mem_append.mpr ⟨h.queued, List.forall_mem_singleton.mpr ⟨name, hev⟩⟩
  filed := h.filed
  events other := by
    by_cases hother : msg.IsEvent other
    · rw [filter_concat_of hother, filter_concat_of hother, ← List.append_assoc, h.events]
    · rw [filter_concat_of_not hother, filter_concat_of_not hother, h.events]
  responses reqSeq := by
    rw [filter_concat_of_not (hev.not_responds reqSeq)]
    exact h.responses reqSeq
  last reqSeq := by
    rw [filter_concat_of_not (hev.not_responds reqSeq)]
    exact h.last reqSeq

/-- A response that comes is filed, in the place of an earlier one. -/
theorem Kept.overwrite (h : Kept received taken queue file) (htype : msg.type = some "response") :
    Kept (received ++ [msg]) taken queue
      (Function.update file msg.requestSeq (some msg)) where
  queued := h.queued
  filed reqSeq m hm := by
    by_cases hseq : some reqSeq = msg.requestSeq
    · rw [hseq, Function.update_self] at hm
      obtain rfl := Option.some.inj hm
      exact ⟨htype, hseq.symm⟩
    · rw [Function.update_of_ne hseq] at hm
      exact h.filed reqSeq m hm
  events name := by
    have hnot : ¬ msg.IsEvent name := fun hev =>
      absurd (Option.some.inj (htype.symm.trans hev.1)) (by decide)
    rw [filter_concat_of_not hnot]
    exact h.events name
  responses reqSeq := by
    by_cases hseq : some reqSeq = msg.requestSeq
    · rw [filter_concat_of ⟨htype, hseq.symm⟩, hseq, Function.update_self]
      exact ((List.sublist_append_left _ _).trans (h.responses reqSeq)).append (List.Sublist.refl _)
    · rw [filter_concat_of_not fun hthis => hseq hthis.2.symm, Function.update_of_ne hseq]
      exact h.responses reqSeq
  last reqSeq := by
    by_cases hseq : some reqSeq = msg.requestSeq
    · rw [filter_concat_of ⟨htype, hseq.symm⟩, hseq, Function.update_self]
      exact List.getLast?_concat.trans List.getLast?_concat.symm
    · rw [filter_concat_of_not fun hthis => hseq hthis.2.symm, Function.update_of_ne hseq]
      exact h.last reqSeq

/-- Any other message is not kept. -/
theorem Kept.ignore (h : Kept received taken queue file) (hev : msg.type ≠ some "event")
    (hres : msg.type ≠ some "response") : Kept (received ++ [msg]) taken queue file where
  queued := h.queued
  filed := h.filed
  events name := by
    rw [filter_concat_of_not fun hthis => hev hthis.1]
    exact h.events name
  responses reqSeq := by
    rw [filter_concat_of_not fun hthis => hres hthis.1]
    exact h.responses reqSeq
  last reqSeq := by
    rw [filter_concat_of_not fun hthis => hres hthis.1]
    exact h.last reqSeq

/-- A response is taken out of the file. -/
theorem Kept.pop (h : Kept received taken queue file) {reqSeq : ℤ}
    (hmsg : file (some reqSeq) = some msg) : Kept received (taken ++ [msg]) queue
      (Function.update file (some reqSeq) none) := by
  have hthis := h.filed reqSeq msg hmsg
  have hfile : ∀ other, (taken ++ [msg]).filter (·.Responds other) ++
      (Function.update file (some reqSeq) none (some other)).toList =
      taken.filter (·.Responds other) ++ (file (some other)).toList := fun other => by
    by_cases hseq : some other = some reqSeq
    · rw [filter_concat_of ⟨hthis.1, hthis.2.trans hseq.symm⟩, hseq, Function.update_self, hmsg]
      exact List.append_nil _
    · rw [filter_concat_of_not fun hother => hseq (hother.2.symm.trans hthis.2),
        Function.update_of_ne hseq]
  refine ⟨h.queued, fun other m hm => ?_, fun name => ?_, fun other => ?_, fun other => ?_⟩
  · by_cases hseq : some other = some reqSeq
    · rw [hseq, Function.update_self] at hm
      cases hm
    · rw [Function.update_of_ne hseq] at hm
      exact h.filed other m hm
  · rw [filter_concat_of_not fun hev => hev.not_responds reqSeq hthis]
    exact h.events name
  · rw [hfile]
    exact h.responses other
  · rw [hfile]
    exact h.last other

/-- Events are taken out of the queue, of each name the first ones. -/
theorem Kept.take (h : Kept received taken queue file) {out rest : List Msg}
    (hout : ∀ ev ∈ out, ∃ name, ev.IsEvent name) (hsub : rest.Sublist queue)
    (hall : ∀ name, out.filter (·.IsEvent name) ++ rest.filter (·.IsEvent name) =
      queue.filter (·.IsEvent name)) : Kept received (taken ++ out) rest file := by
  have hfile : ∀ reqSeq, (taken ++ out).filter (·.Responds reqSeq) =
      taken.filter (·.Responds reqSeq) := fun reqSeq => by
    have hnone : out.filter (·.Responds reqSeq) = [] := List.filter_eq_nil_iff.mpr fun ev hev => by
      obtain ⟨name, hname⟩ := hout ev hev
      exact fun heq => hname.not_responds reqSeq (of_decide_eq_true heq)
    rw [List.filter_append, hnone, List.append_nil]
  refine ⟨fun ev hev => h.queued ev (hsub.subset hev), h.filed, fun name => ?_, fun reqSeq => ?_,
    fun reqSeq => ?_⟩
  · rw [List.filter_append, List.append_assoc, hall]
    exact h.events name
  · rw [hfile]
    exact h.responses reqSeq
  · rw [hfile]
    exact h.last reqSeq

/-- An event is handed out as it comes. Nothing in the queue has its name, so it is the next. -/
theorem Kept.handOut (h : Kept received taken queue file) {name : String}
    (hev : msg.IsEvent name) (hnone : queue.filter (·.IsEvent name) = []) :
    Kept (received ++ [msg]) (taken ++ [msg]) queue file := by
  have hfile : ∀ reqSeq (l : List Msg),
      (l ++ [msg]).filter (·.Responds reqSeq) = l.filter (·.Responds reqSeq) :=
    fun reqSeq => filter_concat_of_not (hev.not_responds reqSeq)
  refine ⟨h.queued, h.filed, fun other => ?_, fun reqSeq => ?_, fun reqSeq => ?_⟩
  · by_cases hother : msg.IsEvent other
    · obtain rfl : name = other := Option.some.inj (hev.2.symm.trans hother.2)
      rw [filter_concat_of hother, filter_concat_of hother, ← h.events, hnone, List.append_nil,
        List.append_nil]
    · rw [filter_concat_of_not hother, filter_concat_of_not hother]
      exact h.events other
  · rw [hfile, hfile]
    exact h.responses reqSeq
  · rw [hfile, hfile]
    exact h.last reqSeq

end Kept

/-! ### The calls -/

section Calls

variable {received taken : List Msg} {msg : Msg} {d d' : Dap}

/-- A message that comes is queued or filed, or it is neither an event nor a response. -/
theorem dispatch_cases (hwell : msg.WellFormed) (hd : dispatch msg d = .ok d') :
    (∃ name, msg.IsEvent name ∧ d' = { d with events := d.events ++ [msg] }) ∨
    (msg.type = some "response" ∧
      d' = { d with responses := Function.update d.responses msg.requestSeq (some msg) }) ∨
    (msg.type ≠ some "event" ∧ msg.type ≠ some "response" ∧ d' = d) := by
  obtain ⟨type, htype⟩ := Option.ne_none_iff_exists'.mp hwell.type
  have heq : dispatch msg d = if type = "event" then .ok { d with events := d.events ++ [msg] }
      else if type = "response" then
        .ok { d with responses := Function.update d.responses msg.requestSeq (some msg) }
      else .ok d := by
    rw [dispatch, htype]
    rfl
  rw [heq] at hd
  split_ifs at hd with hevent hresponse
  · obtain ⟨name, hname⟩ := Option.ne_none_iff_exists'.mp (hwell.event (hevent ▸ htype))
    exact .inl ⟨name, ⟨hevent ▸ htype, hname⟩, (Except.ok.inj hd).symm⟩
  · exact .inr (.inl ⟨hresponse ▸ htype, (Except.ok.inj hd).symm⟩)
  · refine .inr (.inr ⟨fun htype' => ?_, fun htype' => ?_, (Except.ok.inj hd).symm⟩)
    · exact hevent (Option.some.inj (htype.symm.trans htype'))
    · exact hresponse (Option.some.inj (htype.symm.trans htype'))

theorem dispatch_kept (hwell : msg.WellFormed) (hd : dispatch msg d = .ok d')
    (h : Kept received taken d.events d.responses) :
    Kept (received ++ [msg]) taken d'.events d'.responses := by
  rcases dispatch_cases hwell hd with ⟨name, hev, rfl⟩ | ⟨hres, rfl⟩ | ⟨hev, hres, rfl⟩
  · exact h.enqueue hev
  · exact h.overwrite hres
  · exact h.ignore hev hres

theorem dispatch_frame (hwell : msg.WellFormed) (hd : dispatch msg d = .ok d') :
    d'.buf = d.buf ∧ ∀ name, ¬ msg.IsEvent name →
      d'.events.filter (·.IsEvent name) = d.events.filter (·.IsEvent name) := by
  rcases dispatch_cases hwell hd with ⟨name, hev, rfl⟩ | ⟨hres, rfl⟩ | ⟨hev, hres, rfl⟩
  · exact ⟨rfl, fun other hnot => filter_concat_of_not hnot _⟩
  · exact ⟨rfl, fun _ _ => rfl⟩
  · exact ⟨rfl, fun _ _ => rfl⟩

theorem matchEvent_cases {name : String} (hwell : msg.WellFormed) {q : Dap ⊕ Msg × Dap}
    (h : matchEvent name msg d = .ok q) : (msg.IsEvent name ∧ q = .inr (msg, d)) ∨
      (¬ msg.IsEvent name ∧ ∃ d', dispatch msg d = .ok d' ∧ q = .inl d') := by
  by_cases hev : msg.IsEvent name
  · refine .inl ⟨hev, ?_⟩
    rw [matchEvent, hev.1, hev.2] at h
    simpa [field, Except.map, bind, Except.bind, pure, Except.pure, eq_comm] using h
  · refine .inr ⟨hev, ?_⟩
    rw [matchEvent_eq hwell hev] at h
    cases hd : dispatch msg d with
    | error e =>
      rw [hd] at h
      cases h
    | ok d' =>
      rw [hd] at h
      exact ⟨d', rfl, (Except.ok.inj h).symm⟩

/-- The first event of the name is taken out of the queue. -/
theorem popEvent_eq_some {name : String} {events rest : List Msg}
    (hqueued : ∀ ev ∈ events, ∃ name, ev.IsEvent name)
    (h : popEvent name events = .ok (some (msg, rest))) :
    msg.IsEvent name ∧ rest.Sublist events ∧ ∀ other,
      [msg].filter (·.IsEvent other) ++ rest.filter (·.IsEvent other) =
        events.filter (·.IsEvent other) := by
  induction events generalizing rest with
  | nil => cases h
  | cons ev events ih =>
    obtain ⟨⟨this, htype, hthis⟩, hevents⟩ := List.forall_mem_cons.mp hqueued
    rw [popEvent, hthis, field] at h
    change (if this = name then _ else _) = _ at h
    split_ifs at h with heq
    · obtain ⟨rfl, rfl⟩ : ev = msg ∧ events = rest := by simpa [pure, Except.pure] using h
      exact ⟨⟨htype, heq ▸ hthis⟩, List.sublist_cons_self _ _, fun other =>
        (List.filter_append ..).symm⟩
    · cases hpop : popEvent name events with
      | error e => rw [hpop] at h; cases h
      | ok r =>
        rw [hpop] at h
        cases r with
        | none => cases h
        | some p =>
          obtain ⟨rfl, rfl⟩ : p.1 = msg ∧ ev :: p.2 = rest := by
            simpa [pure, Except.pure, bind, Except.bind] using h
          obtain ⟨hname, hsub, hall⟩ := ih hevents hpop
          refine ⟨hname, hsub.cons_cons ev, fun other => ?_⟩
          by_cases hev : ev.IsEvent other
          · have hkeep : ∀ l : List Msg, (ev :: l).filter (·.IsEvent other) =
                ev :: l.filter (·.IsEvent other) :=
              fun l => List.filter_cons_of_pos (by simpa using hev)
            -- `ev` has another name than the one that is taken out
            have hnot : ¬ p.1.IsEvent other := fun hp => heq (Option.some.inj
              (hthis.symm.trans (hev.2.trans (hp.2.symm.trans hname.2))))
            have hnone : [p.1].filter (·.IsEvent other) = [] := by
              rw [List.filter_singleton, decide_eq_false hnot]; rfl
            rw [hkeep, hkeep, hnone, ← hall other, hnone]
            rfl
          · have hskip : ∀ l : List Msg, (ev :: l).filter (·.IsEvent other) =
                l.filter (·.IsEvent other) :=
              fun l => List.filter_cons_of_neg (by simpa using hev)
            rw [hskip, hskip]
            exact hall other

/-- Nothing in the queue has the name. -/
theorem filter_eq_nil_of_popEvent {name : String} {events : List Msg}
    (hqueued : ∀ ev ∈ events, ∃ name, ev.IsEvent name) (h : popEvent name events = .ok none) :
    events.filter (·.IsEvent name) = [] := by
  induction events with
  | nil => rfl
  | cons ev events ih =>
    obtain ⟨⟨this, htype, hthis⟩, hevents⟩ := List.forall_mem_cons.mp hqueued
    rw [popEvent, hthis, field] at h
    change (if this = name then _ else _) = _ at h
    split_ifs at h with heq
    · cases h
    · cases hpop : popEvent name events with
      | error e => rw [hpop] at h; cases h
      | ok r =>
        rw [hpop] at h
        cases r with
        | some p => cases h
        | none =>
          have hnot : ¬ ev.IsEvent name := fun hev =>
            heq (Option.some.inj (hthis.symm.trans hev.2))
          rw [List.filter_cons_of_neg (by simpa using hnot)]
          exact ih hevents hpop

theorem otherEvents_eq {name : String} {events : List Msg}
    (hqueued : ∀ ev ∈ events, ∃ name, ev.IsEvent name) :
    otherEvents name events = .ok (events.filter fun ev => ¬ ev.IsEvent name) := by
  induction events with
  | nil => rfl
  | cons ev events ih =>
    obtain ⟨⟨this, htype, hthis⟩, hevents⟩ := List.forall_mem_cons.mp hqueued
    have hiff : ev.IsEvent name ↔ this = name :=
      ⟨fun h => Option.some.inj (hthis.symm.trans h.2), fun h => ⟨htype, h ▸ hthis⟩⟩
    rw [otherEvents, ih hevents, hthis, field]
    by_cases heq : this = name
    · simp [hiff, heq, bind, Except.bind, pure, Except.pure]
    · simp [hiff, heq, bind, Except.bind, pure, Except.pure]

/-- The events of the name leave the queue. -/
theorem dropEvents_eq_ok {name : String} (hqueued : ∀ ev ∈ d.events, ∃ name, ev.IsEvent name)
    (h : dropEvents name d = .ok d') :
    d' = { d with events := d.events.filter fun ev => ¬ ev.IsEvent name } := by
  rw [dropEvents, otherEvents_eq hqueued] at h
  exact (Except.ok.inj h).symm

end Calls

/-! ### Reading the stream -/

section Stream

variable {loads : Bytes → Except Error Msg} {ms : List (Message loads)} {sent : Bytes}
  {taken : List Msg} {d d' : Dap} {w w' : World} {msg : Msg} {timeout : ℚ}

theorem stream_append (ms ms' : List (Message loads)) :
    stream (ms ++ ms') = stream ms ++ stream ms' := by
  rw [stream, List.map_append, List.flatten_append]
  rfl

/-- What `_read_msg` returns is the next message of the stream. -/
theorem readMsg_returns (hpart : d.buf ++ delivered w.inbox <+: stream ms)
    (h : Returns (answers answer) (readMsg loads timeout d) w (msg, d') w') :
    ∃ m rest, ms = m :: rest ∧ msg = m.msg ∧ d'.events = d.events ∧ d'.responses = d.responses ∧
      d.buf ++ delivered w.inbox = frame m.raw ++ (d'.buf ++ delivered w'.inbox) := by
  obtain ⟨inbox, clock⟩ := w
  have hcut : ∀ raw, d.buf ++ delivered inbox <+: frame raw →
      ¬ (d.buf ++ delivered inbox).length < (frame raw).length := fun raw hframe hproper => by
    rcases lt_or_ge timeout 0 with hneg | hpos
    · exact (readMsg_negative hneg _).not_returns h
    · rcases readMsg_partial loads clock hpos d rfl hframe hproper with ⟨hraise, -⟩ | ⟨hdiv, -⟩
      · exact hraise.not_returns h
      · exact hdiv.not_returns h
  cases ms with
  | nil =>
    have hnil : d.buf ++ delivered inbox = [] := List.prefix_nil.mp hpart
    refine absurd ?_ (hcut [] ?_)
    · rw [hnil]
      decide
    · rw [hnil]
      exact List.nil_prefix
  | cons m ms =>
    have hwhole : (frame m.raw).length ≤ (d.buf ++ delivered inbox).length :=
      le_of_not_gt fun hlt => hcut m.raw (prefix_frame hpart hlt).1 hlt
    obtain ⟨t, ht, -, -⟩ := exists_behind hpart hwhole
    rcases lt_or_ge timeout 0 with hneg | hpos
    · exact absurd h (readMsg_negative hneg _).not_returns
    · rcases readMsg_whole clock m.json hpos d ht with
        ⟨buf, inbox', hread, hrest, -, -⟩ | ⟨hraise, -⟩
      · obtain ⟨heq, rfl⟩ := hread.returns_iff.mp h
        obtain ⟨rfl, rfl⟩ := Prod.mk.inj (Except.ok.inj heq)
        exact ⟨m, ms, rfl, rfl, rfl, rfl, by rw [ht, hrest]⟩
      · exact absurd h hraise.not_returns

/-- What has been sent is what has been read, what is in `buf` and what is still to be received;
and the client keeps what has been read. -/
def Accounted (ms : List (Message loads)) (sent : Bytes) (taken : List Msg) (d : Dap) (w : World) :
    Prop :=
  ∃ read rest, ms = read ++ rest ∧ stream read ++ (d.buf ++ delivered w.inbox) = sent ∧
    Kept (read.map Message.msg) taken d.events d.responses

theorem Accounted.congr (h : Accounted ms sent taken d w) (hbuf : d'.buf = d.buf)
    (hevents : d'.events = d.events) (hresponses : d'.responses = d.responses)
    (hinbox : w'.inbox = w.inbox) : Accounted ms sent taken d' w' := by
  obtain ⟨read, rest, hms, hsent, hkept⟩ := h
  refine ⟨read, rest, hms, ?_, ?_⟩
  · rw [hbuf, hinbox]
    exact hsent
  · rw [hevents, hresponses]
    exact hkept

/-- The client changes what it keeps, between two messages. -/
theorem Accounted.keep (h : Accounted ms sent taken d w) {taken' : List Msg} (hbuf : d'.buf = d.buf)
    (hkeep : ∀ received, Kept received taken d.events d.responses →
      Kept received taken' d'.events d'.responses) : Accounted ms sent taken' d' w := by
  obtain ⟨read, rest, hms, hsent, hkept⟩ := h
  refine ⟨read, rest, hms, ?_, hkeep _ hkept⟩
  rw [hbuf]
  exact hsent

theorem Accounted.queued (h : Accounted ms sent taken d w) :
    ∀ ev ∈ d.events, ∃ name, ev.IsEvent name := by
  obtain ⟨read, rest, -, -, hkept⟩ := h
  exact hkept.queued

/-- The next message is read, and the client does with it what keeps it. -/
theorem Accounted.read (hpart : sent <+: stream ms) (h : Accounted ms sent taken d w)
    (hread : Returns (answers answer) (readMsg loads timeout d) w (msg, d') w') :
    d'.events = d.events ∧ (∃ m ∈ ms, m.msg = msg) ∧
      ∀ (d₂ : Dap) (taken' : List Msg), d₂.buf = d'.buf →
        (∀ received, Kept received taken d'.events d'.responses →
          Kept (received ++ [msg]) taken' d₂.events d₂.responses) →
        Accounted ms sent taken' d₂ w' := by
  obtain ⟨read, rest, hms, hsent, hkept⟩ := h
  have hrest : d.buf ++ delivered w.inbox <+: stream rest := by
    rw [← hsent, hms, stream_append] at hpart
    exact (List.prefix_append_right_inj _).mp hpart
  obtain ⟨m, rest', hrest', rfl, hevents, hresponses, hunread⟩ := readMsg_returns hrest hread
  have hms' : ms = (read ++ [m]) ++ rest' := by
    rw [hms, hrest', List.append_assoc]
    rfl
  refine ⟨hevents, ⟨m, ?_, rfl⟩, fun d₂ taken' hbuf hkeep => ⟨read ++ [m], rest', hms', ?_, ?_⟩⟩
  · rw [hms']
    exact List.mem_append_left _ (List.mem_append_right _ (List.mem_singleton_self m))
  · have hone : stream [m] = frame m.raw := List.append_nil _
    rw [stream_append, hone, hbuf, List.append_assoc, ← hunread]
    exact hsent
  · rw [List.map_append]
    exact hkeep _ (by rw [hevents, hresponses]; exact hkept)

end Stream

/-! ### Waiting -/

section Wait

variable {loads : Bytes → Except Error Msg} {γ : Type} {deadline : ℚ} {waiting : Dap → Bool}
  {handle : Msg → Dap → Except Error (Dap ⊕ γ)} {d : Dap} {w w' : World}

theorem answers_monotonic {t : ℚ} (h : Returns (answers answer) monotonic w t w') :
    w'.inbox = w.inbox := by
  obtain rfl : (answer Op.monotonic w).2 = w' := congrArg Prod.snd (returns_attempt.mp h)
  rfl

/-- A round reads and handles one message, or it is the last. -/
theorem awaitRound_returns {r : Dap ⊕ (Dap ⊕ γ)}
    (h : Returns (answers answer) (awaitRound loads deadline waiting handle d) w r w') :
    (r = .inr (.inl d) ∧ w'.inbox = w.inbox) ∨
    ∃ timeout w₁ msg d₁ q, w₁.inbox = w.inbox ∧
      Returns (answers answer) (readMsg loads timeout d) w₁ (msg, d₁) w' ∧
      handle msg d₁ = .ok q ∧ r = q.map id .inr := by
  rcases returns_ite.mp h with ⟨-, h⟩ | ⟨-, h⟩
  · obtain ⟨now, w₁, hnow, h⟩ := returns_bind.mp h
    have hinbox := answers_monotonic hnow
    rcases returns_ite.mp h with ⟨-, h⟩ | ⟨-, h⟩
    · obtain ⟨now', w₂, hnow', h⟩ := returns_bind.mp h
      obtain ⟨⟨msg, d₁⟩, w₃, hread, h⟩ := returns_bind.mp h
      obtain ⟨q, w₄, hq, hrest⟩ := returns_bind.mp h
      obtain ⟨hhandle, rfl⟩ := returns_except.mp hq
      obtain ⟨rfl, rfl⟩ := returns_pure.mp hrest
      exact .inr ⟨_, w₂, msg, d₁, q, (answers_monotonic hnow').trans hinbox, hread, hhandle, rfl⟩
    · obtain ⟨rfl, rfl⟩ := returns_pure.mp h
      exact .inl ⟨rfl, hinbox⟩
  · obtain ⟨rfl, rfl⟩ := returns_pure.mp h
    exact .inl ⟨rfl, rfl⟩

/-- The rule for a wait: what does not depend on the clock and is kept by each message. -/
theorem untilDeadline_returns {I : Dap → World → Prop} {J : γ → World → Prop}
    (hclock : ∀ d w w', w'.inbox = w.inbox → I d w → I d w')
    (hread : ∀ d w timeout msg d₁ w' q, I d w →
      Returns (answers answer) (readMsg loads timeout d) w (msg, d₁) w' → handle msg d₁ = .ok q →
      Sum.elim (I · w') (J · w') q) {r : Dap ⊕ γ} (hI : I d w)
    (h : Returns (answers answer) (untilDeadline loads deadline waiting handle d) w r w') :
    Sum.elim (I · w') (J · w') r := by
  refine Returns.loop_inv (J := fun r w => Sum.elim (I · w) (J · w) r) ?_ hI h
  intro d w r w' hI h
  rcases awaitRound_returns h with
    ⟨rfl, hinbox⟩ | ⟨timeout, w₁, msg, d₁, q, hinbox, hmsg, hhandle, rfl⟩
  · exact hclock d w w' hinbox hI
  · have hq := hread d w₁ timeout msg d₁ w' q (hclock d w w₁ hinbox hI) hmsg hhandle
    cases q with
    | inl d₂ => exact hq
    | inr c => exact hq

end Wait

section Account

variable {loads : Bytes → Except Error Msg} {ms : List (Message loads)} {sent : Bytes}
  {taken : List Msg} {d d' : Dap} {w w' : World} {msg : Msg} {timeout : ℚ}

theorem send_accounted {J : Type} {dumps : Request J → Bytes} {command : String}
    {arguments : Option J} {seq : ℕ} (h : Accounted ms sent taken d w)
    (hret : Returns (answers answer) (send dumps command arguments d) w (seq, d') w') :
    Accounted ms sent taken d' w' := by
  obtain ⟨u, w₁, hsend, hret⟩ := returns_bind.mp hret
  obtain ⟨heq, rfl⟩ := returns_pure.mp hret
  obtain ⟨rfl, rfl⟩ := Prod.mk.inj heq
  obtain rfl : (answer (Op.sendall _) w).2 = w' := congrArg Prod.snd (returns_attempt.mp hsend)
  exact h.congr rfl rfl rfl rfl

theorem waitResponse_accounted {reqSeq : ℤ} (hwell : ∀ m ∈ ms, m.msg.WellFormed)
    (hpart : sent <+: stream ms) (h : Accounted ms sent taken d w)
    (hret : Returns (answers answer) (waitResponse loads reqSeq timeout d) w (msg, d') w') :
    msg.Responds reqSeq ∧ msg.success = true ∧ Accounted ms sent (taken ++ [msg]) d' w' := by
  obtain ⟨now, w₁, hnow, hret⟩ := returns_bind.mp hret
  obtain ⟨r, w₂, hwait, hret⟩ := returns_bind.mp hret
  have hr : Sum.elim (Accounted ms sent taken · w₂) (fun _ => False) r := by
    refine untilDeadline_returns (J := fun _ _ => False)
      (fun d w w' hinbox h => h.congr rfl rfl rfl hinbox) ?_
      (h.congr rfl rfl rfl (answers_monotonic hnow)) hwait
    intro d w timeout msg d₁ w' q h hread hhandle
    obtain ⟨-, ⟨m, hm, rfl⟩, hnext⟩ := h.read hpart hread
    cases hd : dispatch m.msg d₁ with
    | error e =>
      rw [hd] at hhandle
      cases hhandle
    | ok d₂ =>
      rw [hd] at hhandle
      obtain rfl := Except.ok.inj hhandle
      exact hnext d₂ taken (dispatch_frame (hwell m hm) hd).1 fun received =>
        dispatch_kept (hwell m hm) hd
  cases r with
  | inr c => exact c.elim
  | inl d₁ =>
    change Returns _ (popResponse reqSeq d₁) w₂ (msg, d') w' at hret
    rw [popResponse] at hret
    cases hmsg : d₁.responses (some reqSeq) with
    | none =>
      rw [hmsg] at hret
      exact absurd hret not_returns_throw
    | some m =>
      rw [hmsg] at hret
      rcases returns_ite.mp hret with ⟨hsuccess, hret⟩ | ⟨-, hret⟩
      · obtain ⟨heq, rfl⟩ := returns_pure.mp hret
        obtain ⟨rfl, rfl⟩ := Prod.mk.inj heq
        refine ⟨?_, hsuccess, hr.keep rfl fun received hkept => hkept.pop hmsg⟩
        obtain ⟨read, rest, -, -, hkept⟩ := hr
        exact hkept.filed reqSeq msg hmsg
      · obtain ⟨command, w₃, -, hthrow⟩ := returns_bind.mp hret
        exact absurd hthrow not_returns_throw

theorem waitEvent_accounted {name : String} (hwell : ∀ m ∈ ms, m.msg.WellFormed)
    (hpart : sent <+: stream ms) (h : Accounted ms sent taken d w)
    (hret : Returns (answers answer) (waitEvent loads name timeout d) w (msg, d') w') :
    msg.IsEvent name ∧ Accounted ms sent (taken ++ [msg]) d' w' := by
  obtain ⟨popped, w₁, hfirst, hret⟩ := returns_bind.mp hret
  obtain ⟨hpop, rfl⟩ := returns_except.mp hfirst
  cases popped with
  | some p =>
    obtain ⟨heq, rfl⟩ := returns_pure.mp hret
    obtain ⟨rfl, rfl⟩ := Prod.mk.inj heq
    obtain ⟨hname, hsub, hall⟩ := popEvent_eq_some h.queued hpop
    have hout : ∀ ev ∈ [p.1], ∃ name, ev.IsEvent name :=
      List.forall_mem_singleton.mpr ⟨name, hname⟩
    exact ⟨hname, h.keep rfl fun received hkept => hkept.take hout hsub hall⟩
  | none =>
    obtain ⟨now, w₂, hnow, hret⟩ := returns_bind.mp hret
    obtain ⟨r, w₃, hwait, hret⟩ := returns_bind.mp hret
    -- the queue has no event of the name, and gets none before one is handed out
    have hr : Sum.elim
        (fun d => Accounted ms sent taken d w₃ ∧ d.events.filter (·.IsEvent name) = [])
        (fun p => p.1.IsEvent name ∧ Accounted ms sent (taken ++ [p.1]) p.2 w₃) r := by
      refine untilDeadline_returns
        (I := fun d w => Accounted ms sent taken d w ∧ d.events.filter (·.IsEvent name) = [])
        (J := fun p w => p.1.IsEvent name ∧ Accounted ms sent (taken ++ [p.1]) p.2 w)
        (fun d w w' hinbox h => ⟨h.1.congr rfl rfl rfl hinbox, h.2⟩) ?_
        ⟨h.congr rfl rfl rfl (answers_monotonic hnow), filter_eq_nil_of_popEvent h.queued hpop⟩
        hwait
      rintro d w timeout msg d₁ w' q ⟨h, hnone⟩ hread hhandle
      obtain ⟨hevents, ⟨m, hm, rfl⟩, hnext⟩ := h.read hpart hread
      rw [← hevents] at hnone
      rcases matchEvent_cases (hwell m hm) hhandle with ⟨hev, rfl⟩ | ⟨hev, d₂, hd, rfl⟩
      · exact ⟨hev, hnext d₁ _ rfl fun received hkept => hkept.handOut hev hnone⟩
      · obtain ⟨hbuf, hsame⟩ := dispatch_frame (hwell m hm) hd
        exact ⟨hnext d₂ taken hbuf fun received => dispatch_kept (hwell m hm) hd,
          (hsame name hev).trans hnone⟩
    cases r with
    | inl d₁ => exact absurd hret not_returns_throw
    | inr p =>
      obtain ⟨heq, rfl⟩ := returns_pure.mp hret
      obtain ⟨rfl, rfl⟩ := Prod.mk.inj heq
      exact hr

theorem dropEvents_accounted {name : String} (h : Accounted ms sent taken d w)
    (hret : dropEvents name d = .ok d') :
    Accounted ms sent (taken ++ d.events.filter (·.IsEvent name)) d' w := by
  obtain rfl := dropEvents_eq_ok h.queued hret
  refine h.keep rfl fun received hkept => hkept.take ?_ List.filter_sublist fun other => ?_
  · exact fun ev hev => h.queued ev (List.mem_of_mem_filter hev)
  · rw [List.filter_filter, List.filter_filter]
    by_cases hother : other = name
    · have hnone : d.events.filter (fun ev => ev.IsEvent other && ¬ ev.IsEvent name) = [] :=
        List.filter_eq_nil_iff.mpr fun ev _ => by simp [hother]
      rw [hnone, List.append_nil]
      exact List.filter_congr fun ev _ => by simp [hother]
    · have hnot : ∀ ev : Msg, ev.IsEvent other → ¬ ev.IsEvent name := fun ev h h' =>
        hother (Option.some.inj (h.2.symm.trans h'.2))
      have hnone : d.events.filter (fun ev => ev.IsEvent other && ev.IsEvent name) = [] :=
        List.filter_eq_nil_iff.mpr fun ev _ => by simpa using hnot ev
      rw [hnone, List.nil_append]
      exact List.filter_congr fun ev _ => by simpa using hnot ev

end Account

/-! ### Messages that are there in time -/

section Arrival

variable {loads : Bytes → Except Error Msg} {γ : Type} {deadline : ℚ} {waiting : Dap → Bool}
  {handle : Msg → Dap → Except Error (Dap ⊕ γ)} {d : Dap} {inbox : List (Option Bytes)}
  {clock : ℕ → ℚ} {t : Bytes}

/-- A message that is there in time is read. -/
theorem readMsg_inTime (m : Message loads) (hthere : d.buf ++ delivered inbox = frame m.raw ++ t)
    (hnone : none ∉ inbox) (htime : ¬ GivesUp deadline clock 0) : clock 0 < deadline ∧
      ∃ buf inbox', buf ++ delivered inbox' = t ∧ none ∉ inbox' ∧
        Yields answer (readMsg loads (deadline - clock 1) d) ⟨inbox, fun k => clock (k + 1 + 1)⟩
          (.ok (m.msg, { d with buf := buf })) ⟨inbox', fun k => clock (k + 1 + 1)⟩ := by
  rw [givesUp_zero, not_or, not_le, not_lt] at htime
  refine ⟨htime.1, ?_⟩
  rcases readMsg_whole (fun k => clock (k + 1 + 1)) m.json (sub_nonneg.mpr htime.2) d hthere with
    ⟨buf, inbox', hread, hrest, hsuffix, -⟩ | ⟨-, hmem⟩
  · exact ⟨buf, inbox', hrest, fun h => hnone (hsuffix.subset h), hread⟩
  · exact absurd hmem hnone

/-- What is awaited is there. -/
theorem awaitRound_done (hwait : waiting d = false) (w : World) :
    Yields answer (awaitRound loads deadline waiting handle d) w (.ok (.inr (.inl d))) w := by
  rw [awaitRound, hwait]
  exact yields_pure _ _

/-- A message ends the wait. -/
theorem awaitRound_ends (hwait : waiting d = true) (h : clock 0 < deadline) {msg : Msg} {d₁ : Dap}
    {c : γ} {w : World} (hread : Yields answer (readMsg loads (deadline - clock 1) d)
      ⟨inbox, fun k => clock (k + 1 + 1)⟩ (.ok (msg, d₁)) w)
    (hhandle : handle msg d₁ = .ok (.inr c)) :
    Yields answer (awaitRound loads deadline waiting handle d) ⟨inbox, clock⟩
      (.ok (.inr (.inr c))) w := by
  have hhandled : Yields answer (Script.except (handle msg d₁)) w (.ok (.inr c)) w := by
    rw [hhandle]
    exact yields_except _ _
  rw [awaitRound, if_pos hwait]
  refine (yields_attempt Op.monotonic _).bind ?_
  rw [if_pos h]
  exact (yields_attempt Op.monotonic _).bind (hread.bind (hhandled.bind (yields_pure _ _)))

theorem popResponse_filed {reqSeq : ℤ} {msg : Msg} (hfiled : d.responses (some reqSeq) = some msg)
    (hsuccess : msg.success = true) (w : World) : Yields answer (popResponse reqSeq d) w
      (.ok (msg, { d with responses := Function.update d.responses (some reqSeq) none })) w := by
  rw [popResponse, hfiled]
  dsimp only
  rw [if_pos hsuccess]
  exact yields_pure _ _

variable (deadline waiting handle) in
/-- The loop gets behind messages that do not end it. The induction is on these. -/
theorem untilDeadline_reaches (P : Dap → Prop) (hwaiting : ∀ d, P d → waiting d = true)
    (hbuf : ∀ d buf, P d → P { d with buf := buf }) (pre : List (Message loads))
    (hhandle : ∀ m ∈ pre, ∀ d, P d → ∃ d', handle m.msg d = .ok (.inl d') ∧ P d' ∧ d'.buf = d.buf)
    (hd : P d) (hthere : d.buf ++ delivered inbox = stream pre ++ t) (hnone : none ∉ inbox)
    (htime : ¬ GivesUp deadline clock pre.length) :
    ∃ d' inbox' clock', P d' ∧ d'.buf ++ delivered inbox' = t ∧ none ∉ inbox' ∧
      ¬ GivesUp deadline clock' 0 ∧ ∀ r w',
        Yields answer (untilDeadline loads deadline waiting handle d') ⟨inbox', clock'⟩ r w' →
        Yields answer (untilDeadline loads deadline waiting handle d) ⟨inbox, clock⟩ r w' := by
  induction pre generalizing d inbox clock with
  | nil => exact ⟨d, inbox, clock, hd, hthere, hnone, htime, fun _ _ h => h⟩
  | cons m pre ih =>
    obtain ⟨hfirst, hothers⟩ := List.forall_mem_cons.mp hhandle
    have hzero : ¬ GivesUp deadline clock 0 := fun h => by
      obtain ⟨i, hi, h⟩ := h
      exact htime ⟨i, hi.trans (Nat.zero_le _), h⟩
    rw [List.length_cons, givesUp_succ, not_or] at htime
    rw [stream_cons, List.append_assoc] at hthere
    obtain ⟨hgo, buf, inbox₁, hrest, hnone₁, hread⟩ := readMsg_inTime m hthere hnone hzero
    obtain ⟨d₂, hd₂, hP, hsame⟩ := hfirst _ (hbuf d buf hd)
    have hround := awaitRound_goesOn (hwaiting d hd) hgo hread hd₂
    have hunread : d₂.buf ++ delivered inbox₁ = stream pre ++ t := by
      rw [hsame]
      exact hrest
    obtain ⟨d', inbox', clock', hP', hrest', hnone', htime', hyield⟩ :=
      ih hothers hP hunread hnone₁ htime.2
    exact ⟨d', inbox', clock', hP', hrest', hnone', htime',
      fun r w' h => yields_loop.mpr (hround.bind (hyield r w' h))⟩

variable {pre : List (Message loads)} {m : Message loads} {timeout : ℚ}

theorem waitResponse_inTime {reqSeq : ℤ} (hwell : ∀ x ∈ pre, x.msg.WellFormed)
    (hthere : d.buf ++ delivered inbox = stream pre ++ (frame m.raw ++ t)) (hnone : none ∉ inbox)
    (htime : ¬ Late timeout clock pre.length) (hbefore : d.responses (some reqSeq) = none)
    (hpre : ∀ x ∈ pre, ¬ x.msg.Responds reqSeq) (hm : m.msg.Responds reqSeq)
    (hsuccess : m.msg.success = true) : ∃ d' w',
      Returns (answers answer) (waitResponse loads reqSeq timeout d) ⟨inbox, clock⟩
        (m.msg, d') w' := by
  have hclock : ¬ GivesUp (clock 0 + timeout) (fun k => clock (k + 1)) pre.length := htime
  obtain ⟨d₁, inbox₁, clock₁, hd₁, hrest, hnone₁, htime₁, hyield⟩ :=
    untilDeadline_reaches (clock 0 + timeout) (fun d => (d.responses (some reqSeq)).isNone)
      (fun msg d => (dispatch msg d).map (.inl : Dap → Dap ⊕ Empty))
      (fun d => d.responses (some reqSeq) = none) (fun d hd => by rw [hd]; rfl)
      (fun d buf hd => hd) pre (fun x hx d hd => by
        obtain ⟨d', hdispatch, hbuf, hsame⟩ := dispatch_eq_ok (hwell x hx).type d
        rw [hdispatch]
        exact ⟨d', rfl, (hsame reqSeq (hpre x hx)).trans hd, hbuf⟩) hbefore hthere hnone hclock
  obtain ⟨hgo, buf, inbox₂, -, -, hread⟩ := readMsg_inTime m hrest hnone₁ htime₁
  obtain ⟨d₂, hd₂, hfiled⟩ : ∃ d₂ : Dap, dispatch m.msg { d₁ with buf := buf } = .ok d₂ ∧
      d₂.responses (some reqSeq) = some m.msg := by
    rw [dispatch, hm.1, hm.2]
    exact ⟨_, rfl, Function.update_self _ _ _⟩
  have hwaiting : (d₁.responses (some reqSeq)).isNone = true := by rw [hd₁]; rfl
  have hdone : (d₂.responses (some reqSeq)).isNone = false := by rw [hfiled]; rfl
  have hround : Yields answer (awaitRound loads (clock 0 + timeout)
      (fun d => (d.responses (some reqSeq)).isNone)
      (fun msg d => (dispatch msg d).map (.inl : Dap → Dap ⊕ Empty)) d₁) _ (.ok (.inl d₂)) _ :=
    awaitRound_goesOn hwaiting hgo hread (by rw [hd₂]; rfl)
  have hwait := hyield _ _ (yields_loop.mpr (hround.bind (yields_loop.mpr
    ((awaitRound_done hdone _).bind (yields_pure _ _)))))
  exact ⟨_, _, .of_yields ((yields_attempt Op.monotonic _).bind
    (hwait.bind (popResponse_filed hfiled hsuccess _)))⟩

theorem waitEvent_inTime {name : String} (hwell : ∀ x ∈ pre, x.msg.WellFormed)
    (hthere : d.buf ++ delivered inbox = stream pre ++ (frame m.raw ++ t)) (hnone : none ∉ inbox)
    (htime : ¬ Late timeout clock pre.length)
    (hbefore : ∀ ev ∈ d.events, ∃ other ≠ name, ev.event = some other)
    (hpre : ∀ x ∈ pre, ¬ x.msg.IsEvent name) (hm : m.msg.IsEvent name) : ∃ d' w',
      Returns (answers answer) (waitEvent loads name timeout d) ⟨inbox, clock⟩ (m.msg, d') w' := by
  have hclock : ¬ GivesUp (clock 0 + timeout) (fun k => clock (k + 1)) pre.length := htime
  obtain ⟨d₁, inbox₁, clock₁, -, hrest, hnone₁, htime₁, hyield⟩ :=
    untilDeadline_reaches (clock 0 + timeout) (fun _ => true) (matchEvent name) (fun _ => True)
      (fun _ _ => rfl) (fun _ _ _ => trivial) pre (fun x hx d _ => by
        obtain ⟨d', hdispatch, hbuf, -⟩ := dispatch_eq_ok (hwell x hx).type d
        rw [matchEvent_eq (hwell x hx) (hpre x hx), hdispatch]
        exact ⟨d', rfl, trivial, hbuf⟩) trivial hthere hnone hclock
  obtain ⟨hgo, buf, inbox₂, -, -, hread⟩ := readMsg_inTime m hrest hnone₁ htime₁
  have hmatch : matchEvent name m.msg { d₁ with buf := buf } =
      .ok (.inr (m.msg, { d₁ with buf := buf })) := by
    rw [matchEvent, hm.1, hm.2]
    simp [field, Except.map, bind, Except.bind, pure, Except.pure]
  have hround : Yields answer (awaitRound loads (clock 0 + timeout) (fun _ => true)
      (matchEvent name) d₁) _ _ _ := awaitRound_ends rfl hgo hread hmatch
  have hwait := hyield _ _ (yields_loop.mpr (hround.bind (yields_pure _ _)))
  have hpop : Yields answer (Script.except (popEvent name d.events)) ⟨inbox, clock⟩ (.ok none)
      ⟨inbox, clock⟩ := by
    rw [popEvent_eq_none hbefore]
    exact yields_except _ _
  exact ⟨_, _, .of_yields (hpop.bind ((yields_attempt Op.monotonic _).bind
    (hwait.bind (yields_pure _ _))))⟩

/-- **A message that is there in time ends the wait.** Whatever comes before it, and however it is
cut, the first response to the request and the first event of the name are returned, unless the
deadline is over before the client begins to read them. -/
theorem calls_return (loads : Bytes → Except Error Msg) (pre : List (Message loads))
    (m : Message loads) (hwell : ∀ x ∈ pre, x.msg.WellFormed) (d : Dap)
    (inbox : List (Option Bytes)) (t : Bytes)
    (hthere : d.buf ++ delivered inbox = stream pre ++ (frame m.raw ++ t)) (hnone : none ∉ inbox)
    (clock : ℕ → ℚ) (timeout : ℚ) (htime : ¬ Late timeout clock pre.length) :
    (∀ reqSeq, d.responses (some reqSeq) = none → (∀ x ∈ pre, ¬ x.msg.Responds reqSeq) →
      m.msg.Responds reqSeq → m.msg.success = true → ∃ d' w',
        Returns (answers answer) (waitResponse loads reqSeq timeout d) ⟨inbox, clock⟩
          (m.msg, d') w') ∧
    (∀ name, (∀ ev ∈ d.events, ∃ other ≠ name, ev.event = some other) →
      (∀ x ∈ pre, ¬ x.msg.IsEvent name) → m.msg.IsEvent name → ∃ d' w',
        Returns (answers answer) (waitEvent loads name timeout d) ⟨inbox, clock⟩
          (m.msg, d') w') :=
  ⟨fun _ => waitResponse_inTime hwell hthere hnone htime,
    fun _ => waitEvent_inTime hwell hthere hnone htime⟩

/-- One body for the response to request 1, any other for an event. -/
def loadsStopped (raw : Bytes) : Except Error Msg :=
  .ok (if raw = [123, 125] then ⟨some "response", none, some 1, true, some "continue", none⟩
    else ⟨some "event", some "stopped", none, false, none, none⟩)

def continued : Message loadsStopped := ⟨[123, 125], _, rfl⟩

def stopped : Message loadsStopped := ⟨[91, 93], _, rfl⟩

theorem not_late_one : ¬ Late 60 (fun _ => 0) 1 := by
  rintro ⟨i, -, h⟩
  have hpos : (0 : ℚ) < 60 := Nat.ofNat_pos
  rw [zero_add] at h
  exact h.elim hpos.not_ge hpos.not_gt

theorem stopped_wellFormed : stopped.msg.WellFormed :=
  ⟨Option.some_ne_none _, fun _ => Option.some_ne_none _⟩

theorem continued_wellFormed : continued.msg.WellFormed :=
  ⟨Option.some_ne_none _, fun h => absurd h (by decide)⟩

/-- The target stops before the server answers, and after it. -/
theorem calls_return_stopped :
    (∃ d' w', Returns (answers answer) (waitResponse loadsStopped 1 60 { init with seq := 1 })
      ⟨[some (stream [stopped, continued])], fun _ => 0⟩ (continued.msg, d') w') ∧
    ∃ d' w', Returns (answers answer) (waitEvent loadsStopped "stopped" 60 { init with seq := 1 })
      ⟨[some (stream [continued, stopped])], fun _ => 0⟩ (stopped.msg, d') w' := by
  constructor
  · refine (calls_return loadsStopped [stopped] continued
      (List.forall_mem_singleton.mpr stopped_wellFormed) { init with seq := 1 }
      [some (stream [stopped, continued])] [] (by rw [delivered]; rfl) (by simp) _ 60
      not_late_one).1 1 rfl ?_ ⟨rfl, rfl⟩ rfl
    exact List.forall_mem_singleton.mpr fun h => absurd h.1 (by decide)
  · refine (calls_return loadsStopped [continued] stopped
      (List.forall_mem_singleton.mpr continued_wellFormed) { init with seq := 1 }
      [some (stream [continued, stopped])] [] (by rw [delivered]; rfl) (by simp) _ 60
      not_late_one).2 "stopped" (fun _ h => absurd h List.not_mem_nil) ?_ ⟨rfl, rfl⟩
    exact List.forall_mem_singleton.mpr fun h => absurd h.1 (by decide)

end Arrival

/-! ### Whole sessions -/

section Session

variable {J : Type} {loads : Bytes → Except Error Msg} {dumps : Request J → Bytes} {w₀ w : World}
  {log : List (Call × List Msg)} {d : Dap}

theorem taken_concat (log : List (Call × List Msg)) (call : Call) (out : List Msg) :
    taken (log ++ [(call, out)]) = taken log ++ out := by
  rw [taken, List.flatMap_append, List.flatMap_singleton]
  rfl

/-- Each call takes out what it may and leaves the rest accounted for. -/
theorem Session.accounted {ms : List (Message loads)} (hwell : ∀ m ∈ ms, m.msg.WellFormed)
    (hpart : delivered w₀.inbox <+: stream ms) (h : Session loads dumps w₀ log d w) :
    Accounted ms (delivered w₀.inbox) (taken log) d w ∧ ∀ e ∈ log, e.1.Takes e.2 := by
  induction h with
  | start =>
    exact ⟨⟨[], ms, rfl, rfl, kept_init⟩, fun e he => absurd he List.not_mem_nil⟩
  | send _ hret ih =>
    refine ⟨?_, List.forall_mem_append.mpr ⟨ih.2, List.forall_mem_singleton.mpr rfl⟩⟩
    rw [taken_concat, List.append_nil]
    exact send_accounted ih.1 hret
  | waitResponse _ hret ih =>
    obtain ⟨hresponds, hsuccess, hacc⟩ := waitResponse_accounted hwell hpart ih.1 hret
    refine ⟨?_, List.forall_mem_append.mpr ⟨ih.2, List.forall_mem_singleton.mpr
      ⟨_, rfl, hresponds, hsuccess⟩⟩⟩
    rw [taken_concat]
    exact hacc
  | waitEvent _ hret ih =>
    obtain ⟨hname, hacc⟩ := waitEvent_accounted hwell hpart ih.1 hret
    refine ⟨?_, List.forall_mem_append.mpr ⟨ih.2, List.forall_mem_singleton.mpr ⟨_, rfl, hname⟩⟩⟩
    rw [taken_concat]
    exact hacc
  | dropEvents _ hret ih =>
    refine ⟨?_, List.forall_mem_append.mpr ⟨ih.2, List.forall_mem_singleton.mpr fun ev hev =>
      of_decide_eq_true (List.mem_filter.mp hev).2⟩⟩
    rw [taken_concat]
    exact dropEvents_accounted ih.1 hret

/-- **Nothing is lost, nothing comes twice.** After any calls on a connection, the bytes that the
server has sent are those of the messages read and those still in `buf` or to be received. The
events of each name that have been read are those taken out, in this order, and then those in the
queue; of the responses to each request, in this order too, the last is taken out or filed. Each
call has taken out what it asks for. -/
theorem session_exact (loads : Bytes → Except Error Msg) (dumps : Request J → Bytes)
    (ms : List (Message loads)) (hwell : ∀ m ∈ ms, m.msg.WellFormed)
    (hpart : delivered w₀.inbox <+: stream ms) (h : Session loads dumps w₀ log d w) :
    (∀ e ∈ log, e.1.Takes e.2) ∧ ∃ read, read <+: ms ∧
      stream read ++ (d.buf ++ delivered w.inbox) = delivered w₀.inbox ∧
      (∀ name, (taken log).filter (·.IsEvent name) ++ d.events.filter (·.IsEvent name) =
        (read.map Message.msg).filter (·.IsEvent name)) ∧
      ∀ reqSeq,
        ((taken log).filter (·.Responds reqSeq) ++ (d.responses (some reqSeq)).toList).Sublist
          ((read.map Message.msg).filter (·.Responds reqSeq)) ∧
        ((taken log).filter (·.Responds reqSeq) ++
            (d.responses (some reqSeq)).toList).getLast? =
          ((read.map Message.msg).filter (·.Responds reqSeq)).getLast? := by
  obtain ⟨⟨read, rest, hms, hsent, hkept⟩, htakes⟩ := h.accounted hwell hpart
  exact ⟨htakes, read, ⟨rest, hms.symm⟩, hsent, hkept.events,
    fun reqSeq => ⟨hkept.responses reqSeq, hkept.last reqSeq⟩⟩

/-- The request is sent, and the event that comes before the response waits in the queue. -/
theorem session_exact_stopped : ∃ d w,
    Session loadsStopped (fun _ : Request Unit => [])
      ⟨[some (stream [stopped, continued])], fun _ => 0⟩
      [(.send, []), (.waitResponse 1, [continued.msg])] d w ∧
    d.events.filter (·.IsEvent "stopped") = [stopped.msg] := by
  have hsend : Returns (answers answer)
      (send (fun _ : Request Unit => []) "continue" none init) _ (1, _) _ :=
    .of_yields ((yields_attempt (Op.sendall (frame []))
      ⟨[some (stream [stopped, continued])], fun _ => 0⟩).bind (yields_pure _ _))
  have hwait : ∃ d' w', Returns (answers answer)
      (waitResponse loadsStopped 1 60 { init with seq := 1 })
      ⟨[some (stream [stopped, continued])], fun _ => 0⟩ (continued.msg, d') w' :=
    waitResponse_inTime (t := []) (List.forall_mem_singleton.mpr stopped_wellFormed)
      (by rw [delivered]; rfl) (by simp) not_late_one rfl
      (List.forall_mem_singleton.mpr fun h => absurd h.1 (by decide)) ⟨rfl, rfl⟩ rfl
  obtain ⟨d, w, hwait⟩ := hwait
  have hsession := Session.waitResponse (.send .start hsend) hwait
  refine ⟨d, w, hsession, ?_⟩
  have hwell : ∀ x ∈ [stopped, continued], x.msg.WellFormed := List.forall_mem_cons.mpr
    ⟨stopped_wellFormed, List.forall_mem_singleton.mpr continued_wellFormed⟩
  obtain ⟨-, read, hread, -, hevents, hresponses⟩ := session_exact loadsStopped _
    [stopped, continued] hwell (by rw [delivered]; simp) hsession
  -- the response has been read, so all has been read
  have hmem : continued.msg ∈ read.map Message.msg :=
    List.mem_of_mem_filter ((hresponses 1).1.subset (List.mem_append_left _ List.mem_cons_self))
  have hall : read = [stopped, continued] := by
    have hne : continued.msg ≠ stopped.msg := fun h => absurd (congrArg Msg.success h) (by decide)
    obtain ⟨rest, hrest⟩ := hread
    rcases read with _ | ⟨a, _ | ⟨b, l⟩⟩
    · exact absurd hmem List.not_mem_nil
    · obtain ⟨rfl, -⟩ := List.cons.inj hrest
      exact absurd (List.mem_singleton.mp hmem) hne
    · obtain ⟨rfl, htail⟩ := List.cons.inj hrest
      obtain ⟨rfl, hnil⟩ := List.cons.inj htail
      rw [(List.append_eq_nil_iff.mp hnil).1]
  rw [hall] at hevents
  exact hevents "stopped"

end Session

end Dap
