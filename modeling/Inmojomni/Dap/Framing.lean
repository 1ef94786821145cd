import Inmojomni.Dap

/-!
# DAP framing

A stream of framed messages is read back message by message, however the connection cuts it into
pieces (`readMsgs_chunked`). What has been received but not yet been returned and what is still to
come make up the rest of the stream at all times; both loops only move bytes from the one to the
other (`receiveUntil_outcome`).
-/

open Effect

namespace Dap

variable {loads : Bytes → Except Error Msg}

/-! ### The header -/

theorem not_space_of_digit {b : BitVec 8} (h : 48 ≤ b.toNat ∧ b.toNat ≤ 57) : isSpace b = false := by
  revert b
  decide

theorem strip_digits (n : ℕ) : strip (32 :: Ascii.digits n) = Ascii.digits n := by
  have hdigit : ∀ b ∈ Ascii.digits n, ¬ isSpace b = true := fun b hb => by
    rw [not_space_of_digit (Ascii.digit_of_mem_digits hb)]
    exact Bool.false_ne_true
  have hfront : (Ascii.digits n).dropWhile isSpace = Ascii.digits n :=
    List.dropWhile_eq_self_iff.mpr fun hlen => hdigit _ (List.getElem_mem hlen)
  have hback : (Ascii.digits n).rdropWhile isSpace = Ascii.digits n :=
    List.rdropWhile_eq_self_iff.mpr fun hne => hdigit _ (List.getLast_mem hne)
  rw [strip, List.dropWhile_cons_of_pos (by decide), hfront, hback]

theorem not_mem_digits {n : ℕ} {b : BitVec 8} (h : ¬ (48 ≤ b.toNat ∧ b.toNat ≤ 57)) :
    b ∉ Ascii.digits n := fun hb => h (Ascii.digit_of_mem_digits hb)

theorem natOfBytes_digits (n : ℕ) : natOfBytes (Ascii.digits n) = some n := by
  have hunderscore : (95 : BitVec 8) ∉ Ascii.digits n := not_mem_digits (by decide)
  have hsplit : (Ascii.digits n).splitOn 95 = [Ascii.digits n] := by
    have hall : (([95] : Bytes).intercalate [Ascii.digits n]).splitOn 95 = [Ascii.digits n] :=
      List.splitOn_intercalate 95 (by simpa using hunderscore) (List.cons_ne_nil _ _)
    simpa using hall
  have hnil : [] ∉ [Ascii.digits n] := fun h =>
    Ascii.digits_ne_nil n (List.mem_singleton.mp h).symm
  rw [natOfBytes, hsplit, if_neg hnil, List.flatten_singleton, Ascii.value_digits]

theorem intOfBytes_digits (n : ℕ) : intOfBytes (32 :: Ascii.digits n) = .ok (n : ℤ) := by
  have hsign : ∀ b, ¬ (48 ≤ b.toNat ∧ b.toNat ≤ 57) → (Ascii.digits n).head? ≠ some b :=
    fun b hb hhead => not_mem_digits hb (List.mem_of_mem_head? hhead)
  have hplain : splitSign (Ascii.digits n) = (false, Ascii.digits n) := by
    rw [splitSign, if_neg (hsign 45 (by decide)), if_neg (hsign 43 (by decide))]
  rw [intOfBytes, strip_digits, hplain]
  dsimp only
  rw [natOfBytes_digits]
  rfl

/-- The length is read back. -/
theorem lengthOf_header (n : ℕ) : lengthOf (header n) = .ok (n : ℤ) := by
  have hcolon : (58 : BitVec 8) ∉ 32 :: Ascii.digits n := by
    rw [List.mem_cons, not_or]
    exact ⟨by decide, not_mem_digits (by decide)⟩
  have hsplit : (header n).splitOn 58 = [contentLength, 32 :: Ascii.digits n] := by
    have hall : (([58] : Bytes).intercalate [contentLength, 32 :: Ascii.digits n]).splitOn 58 =
        [contentLength, 32 :: Ascii.digits n] :=
      List.splitOn_intercalate 58 (by
        rintro l hl
        rcases List.mem_cons.mp hl with rfl | hl
        · decide
        · rw [List.mem_singleton.mp hl]
          exact hcolon) (List.cons_ne_nil _ _)
    simpa [header, List.intercalate] using hall
  rw [lengthOf, hsplit]
  exact intOfBytes_digits n

/-- The blank line comes right after the header. -/
theorem find_frame (raw t : Bytes) :
    Text.find blankLine (frame raw ++ t) = some (header raw.length).length := by
  have hcr : (13 : BitVec 8) ∉ header raw.length := by
    rw [header, List.mem_append, List.mem_cons, List.mem_cons]
    rintro (h | h | h | h)
    · exact absurd h (by decide)
    · exact absurd h (by decide)
    · exact absurd h (by decide)
    · exact not_mem_digits (by decide) h
  have hhere : Text.find blankLine (blankLine ++ (raw ++ t)) = some 0 :=
    Text.find_of_isPrefix (List.prefix_append _ _)
  rw [frame, List.append_assoc, List.append_assoc, blankLine, Text.find_append hcr, ← blankLine,
    hhere, Option.map_some, Nat.zero_add]

/-! ### Receiving -/

/-- The bytes that are still to come. -/
def delivered (inbox : List (Option Bytes)) : Bytes := (inbox.map (·.getD [])).flatten

/-- What a loop that receives has when it ends: enough, and the rest is still to come. -/
structure Received (done : Bytes → Bool) (acc : Bytes) (inbox : List (Option Bytes)) (acc' : Bytes)
    (inbox' : List (Option Bytes)) : Prop where
  done : done acc' = true
  conserved : acc' ++ delivered inbox' = acc ++ delivered inbox
  suffix : inbox' <:+ inbox
  timeout : none ∈ inbox → none ∈ inbox'

variable {done : Bytes → Bool} {acc : Bytes} {inbox : List (Option Bytes)} {clock : ℕ → ℚ}

/-- Enough has been received before. -/
theorem receiveUntil_done (h : done acc = true) (w : World) :
    Yields answer (receiveUntil done acc) w (.ok acc) w := by
  have hround : Yields answer (do
      if done acc then return Sum.inr acc
      else
        let data ← recv
        return .inl (acc ++ data)) w (.ok (.inr acc)) w := by
    rw [if_pos h]
    exact yields_pure _ _
  exact yields_loop.mpr (hround.bind (yields_pure _ _))

/-- The loop ends with enough, or a call of `recv` times out, or there is never enough. -/
theorem receiveUntil_outcome (done : Bytes → Bool) (acc : Bytes) (inbox : List (Option Bytes))
    (clock : ℕ → ℚ) :
    (∃ acc' inbox', Yields answer (receiveUntil done acc) ⟨inbox, clock⟩ (.ok acc')
        ⟨inbox', clock⟩ ∧ Received done acc inbox acc' inbox') ∨
    (Raises answer (receiveUntil done acc) ⟨inbox, clock⟩ ∧ none ∈ inbox) ∨
    (Diverges answer (receiveUntil done acc) ⟨inbox, clock⟩ ∧ none ∉ inbox ∧
      done (acc ++ delivered inbox) = false) := by
  induction inbox generalizing acc with
  | nil =>
    cases hdone : done acc with
    | true => exact .inl ⟨acc, [], receiveUntil_done hdone _, hdone, rfl, List.suffix_rfl, id⟩
    | false =>
      -- the peer has closed the connection, every round is the same
      refine .inr (.inr ⟨?_, List.not_mem_nil, ?_⟩)
      · refine Diverges.loop (I := fun b w => b = acc ∧ w = ⟨[], clock⟩) ?_ ⟨rfl, rfl⟩
        rintro _ _ ⟨rfl, rfl⟩
        refine ⟨_, _, ?_, List.append_nil _, rfl⟩
        rw [if_neg (Bool.eq_false_iff.mp hdone)]
        exact (yields_attempt Op.recv _).bind (yields_pure _ _)
      · rwa [delivered, List.map_nil, List.flatten_nil, List.append_nil]
  | cons data inbox ih =>
    cases hdone : done acc with
    | true => exact .inl ⟨acc, _, receiveUntil_done hdone _, hdone, rfl, List.suffix_rfl, id⟩
    | false =>
      have hgo : ¬ done acc = true := Bool.eq_false_iff.mp hdone
      cases data with
      | none =>
        refine .inr (.inl ⟨raises_loop.mpr (Raises.first ⟨.timedOut, ⟨inbox, clock⟩, ?_⟩),
          List.mem_cons_self⟩)
        rw [if_neg hgo]
        exact (yields_attempt Op.recv _).raise
      | some data =>
        have hround : Yields answer (do
            if done acc then return Sum.inr acc
            else
              let data ← recv
              return .inl (acc ++ data)) ⟨some data :: inbox, clock⟩
            (.ok (.inl (acc ++ data))) ⟨inbox, clock⟩ := by
          rw [if_neg hgo]
          exact (yields_attempt Op.recv _).bind (yields_pure _ _)
        have hall : acc ++ delivered (some data :: inbox) = acc ++ data ++ delivered inbox := by
          rw [List.append_assoc]
          rfl
        have hmem : none ∈ some data :: inbox ↔ none ∈ inbox := by
          rw [List.mem_cons, or_iff_right nofun]
        rw [hall, hmem]
        rcases ih (acc ++ data) with ⟨acc', inbox', hyield, hrec⟩ | ⟨hraise, hnone⟩ |
          ⟨hdiv, hnone, hnot⟩
        · exact .inl ⟨acc', inbox', yields_loop.mpr (hround.bind hyield), hrec.done,
            hrec.conserved.trans hall.symm, hrec.suffix.trans (List.suffix_cons _ _),
            fun h => hrec.timeout (hmem.mp h)⟩
        · exact .inr (.inl ⟨raises_loop.mpr (Raises.bind hround hraise), hnone⟩)
        · exact .inr (.inr ⟨diverges_loop.mpr (Diverges.bind hround hdiv), hnone, hnot⟩)

/-! ### One message -/

theorem yields_settimeout {timeout : ℚ} (h : 0 ≤ timeout) (w : World) :
    Yields answer (attempt (Op.settimeout timeout)) w (.ok ()) w := by
  have hset : Yields answer (attempt (Op.settimeout timeout)) w _ _ := yields_attempt _ w
  rwa [answer, if_neg (not_lt.mpr h)] at hset

/-- The header and what comes after it, once the blank line has been received. -/
theorem partition_frame {raw t s u : Bytes} (h : s ++ u = frame raw ++ t)
    (hfound : (Text.find blankLine s).isSome = true) :
    (partition s).1 = header raw.length ∧ (partition s).2 ++ u = raw ++ t := by
  have hall : Text.find blankLine (s ++ u) = some (header raw.length).length := by
    rw [h]
    exact find_frame raw t
  have hfind := Text.find_of_find_append hall (List.cons_ne_nil _ _)
  split_ifs at hfind with hlen
  · have htake : s.take (header raw.length).length = header raw.length := by
      have hhead : (s ++ u).take (header raw.length).length = s.take (header raw.length).length :=
        List.take_append_of_le_length (by omega)
      rw [← hhead, h, frame, List.append_assoc, List.append_assoc, List.take_left]
    have hdrop : s.drop ((header raw.length).length + blankLine.length) ++ u = raw ++ t := by
      rw [← List.drop_append_of_le_length hlen, h, frame, ← List.length_append,
        List.append_assoc (header _ ++ blankLine), List.drop_left]
    rw [partition, hfind]
    exact ⟨htake, hdrop⟩
  · rw [hfind] at hfound
    exact absurd hfound Bool.false_ne_true

theorem yields_length {raw s : Bytes} (h : (partition s).1 = header raw.length) (w : World) :
    Yields answer (Script.except (lengthOf (partition s).1)) w (.ok (raw.length : ℤ)) w := by
  rw [h, lengthOf_header]
  exact yields_except _ _

/-- The body and what comes after it, once all of the body has been received. -/
theorem slice_append {raw t rest u : Bytes} (h : rest ++ u = raw ++ t)
    (hlen : raw.length ≤ rest.length) : rest.take (sliceIndex rest raw.length) = raw ∧
      rest.drop (sliceIndex rest raw.length) ++ u = t := by
  have hslice : sliceIndex rest raw.length = raw.length := by
    rw [sliceIndex, if_neg (by omega), Int.toNat_natCast]
  have htake : (rest ++ u).take raw.length = rest.take raw.length :=
    List.take_append_of_le_length hlen
  have hdrop : (rest ++ u).drop raw.length = rest.drop raw.length ++ u :=
    List.drop_append_of_le_length hlen
  rw [hslice, ← htake, ← hdrop, h]
  exact ⟨List.take_left, List.drop_left⟩

/-- A whole message is read, and what comes after it is kept, unless a call of `recv` times out. -/
theorem readMsg_whole (clock : ℕ → ℚ) {raw t : Bytes} {msg : Msg} (hjson : loads raw = .ok msg)
    {timeout : ℚ} (htimeout : 0 ≤ timeout) (d : Dap)
    (hunread : d.buf ++ delivered inbox = frame raw ++ t) :
    (∃ buf inbox', Yields answer (readMsg loads timeout d) ⟨inbox, clock⟩
        (.ok (msg, { d with buf := buf })) ⟨inbox', clock⟩ ∧
      buf ++ delivered inbox' = t ∧ inbox' <:+ inbox ∧ (none ∈ inbox → none ∈ inbox')) ∨
    (Raises answer (readMsg loads timeout d) ⟨inbox, clock⟩ ∧ none ∈ inbox) := by
  have hset := yields_settimeout htimeout ⟨inbox, clock⟩
  rcases receiveUntil_outcome (fun buf => (Text.find blankLine buf).isSome) d.buf inbox clock with
    ⟨buf, inbox₁, hbuf, hrec⟩ | ⟨hraise, hmem⟩ | ⟨-, -, hnever⟩
  · obtain ⟨hheader, hrest⟩ := partition_frame (hrec.conserved.trans hunread) hrec.done
    have hlength := yields_length hheader ⟨inbox₁, clock⟩
    rcases receiveUntil_outcome (fun rest => ¬ (rest.length : ℤ) < raw.length) (partition buf).2
      inbox₁ clock with ⟨rest, inbox₂, hyield, hrec₂⟩ | ⟨hraise, hmem⟩ | ⟨-, -, hnever⟩
    · have hlen : raw.length ≤ rest.length := by
        have hdone := of_decide_eq_true hrec₂.done
        omega
      obtain ⟨hbody, hkept⟩ := slice_append (hrec₂.conserved.trans hrest) hlen
      have hmsg : Yields answer (Script.except (loads (rest.take (sliceIndex rest raw.length))))
          ⟨inbox₂, clock⟩ (.ok msg) ⟨inbox₂, clock⟩ := by
        rw [hbody, hjson]
        exact yields_except _ _
      exact .inl ⟨rest.drop (sliceIndex rest raw.length), inbox₂,
        hset.bind (hbuf.bind (hlength.bind (hyield.bind (hmsg.bind (yields_pure _ _))))), hkept,
        hrec₂.suffix.trans hrec.suffix, fun h => hrec₂.timeout (hrec.timeout h)⟩
    · exact .inr ⟨Raises.bind hset (Raises.bind hbuf (Raises.bind hlength hraise.first)),
        hrec.suffix.subset hmem⟩
    · rw [hrest, List.length_append, decide_eq_false_iff_not] at hnever
      omega
  · exact .inr ⟨Raises.bind hset hraise.first, hmem⟩
  · rw [hunread, find_frame] at hnever
    exact absurd hnever.symm Bool.false_ne_true

/-- Of a message that does not arrive as a whole there is never enough. -/
theorem readMsg_partial (loads : Bytes → Except Error Msg) (clock : ℕ → ℚ) {raw part : Bytes}
    {timeout : ℚ} (htimeout : 0 ≤ timeout) (d : Dap)
    (hunread : d.buf ++ delivered inbox = part) (hpart : part <+: frame raw)
    (hproper : part.length < (frame raw).length) :
    (Raises answer (readMsg loads timeout d) ⟨inbox, clock⟩ ∧ none ∈ inbox) ∨
    (Diverges answer (readMsg loads timeout d) ⟨inbox, clock⟩ ∧ none ∉ inbox) := by
  have hset := yields_settimeout htimeout ⟨inbox, clock⟩
  obtain ⟨miss, hmiss⟩ := hpart
  rcases receiveUntil_outcome (fun buf => (Text.find blankLine buf).isSome) d.buf inbox clock with
    ⟨buf, inbox₁, hbuf, hrec⟩ | ⟨hraise, hmem⟩ | ⟨hdiv, hmem, -⟩
  · have hcut : buf ++ (delivered inbox₁ ++ miss) = frame raw ++ [] := by
      rw [← List.append_assoc, hrec.conserved, hunread, hmiss, List.append_nil]
    obtain ⟨hheader, hrest⟩ := partition_frame hcut hrec.done
    have hlength := yields_length hheader ⟨inbox₁, clock⟩
    rcases receiveUntil_outcome (fun rest => ¬ (rest.length : ℤ) < raw.length) (partition buf).2
      inbox₁ clock with ⟨rest, inbox₂, -, hrec₂⟩ | ⟨hraise, hmem⟩ | ⟨hdiv, hmem, -⟩
    · -- the body would be longer than what there is of it
      have hlen := of_decide_eq_true hrec₂.done
      have htotal := congrArg List.length hrest
      have hhas := congrArg List.length hrec₂.conserved
      have hmissing := congrArg List.length hmiss
      simp only [List.length_append, List.length_nil] at htotal hhas hmissing
      omega
    · exact .inl ⟨Raises.bind hset (Raises.bind hbuf (Raises.bind hlength hraise.first)),
        hrec.suffix.subset hmem⟩
    · exact .inr ⟨Diverges.bind hset (Diverges.bind hbuf (Diverges.bind hlength hdiv.first)),
        fun h => hmem (hrec.timeout h)⟩
  · exact .inl ⟨Raises.bind hset hraise.first, hmem⟩
  · exact .inr ⟨Diverges.bind hset hdiv.first, hmem⟩

/-! ### Streams of messages -/

/-- A message, with the text that its sender has made of it. -/
structure Message (loads : Bytes → Except Error Msg) where
  raw : Bytes
  msg : Msg
  json : loads raw = .ok msg

/-- Messages as they are sent. -/
def stream (ms : List (Message loads)) : Bytes := (ms.map fun m => frame m.raw).flatten

theorem stream_cons (m : Message loads) (ms : List (Message loads)) :
    stream (m :: ms) = frame m.raw ++ stream ms := rfl

/-- Successive calls of `_read_msg`. -/
def readMsgs (loads : Bytes → Except Error Msg) : List ℚ → Dap → Client (List Msg × Dap)
  | [], d => return ([], d)
  | timeout :: timeouts, d => do
    let (msg, d) ← readMsg loads timeout d
    let (msgs, d) ← readMsgs loads timeouts d
    return (msg :: msgs, d)

theorem delivered_map_some (chunks : List Bytes) : delivered (chunks.map some) = chunks.flatten := by
  rw [delivered, List.map_map]
  exact congrArg List.flatten (List.map_id chunks)

theorem exists_of_suffix_map {chunks : List Bytes} (h : inbox <:+ chunks.map some) :
    ∃ rest, rest <:+ chunks ∧ inbox = rest.map some := by
  refine ⟨chunks.drop (chunks.length - inbox.length), List.drop_suffix _ _, ?_⟩
  rw [List.map_drop, ← List.length_map some]
  exact List.suffix_iff_eq_drop.mp h

/-- **Framing.** However a stream of messages is cut into what `recv` answers, successive calls of
`_read_msg` return the messages in order, and what has been received of the others is kept. -/
theorem readMsgs_chunked (loads : Bytes → Except Error Msg) (ms : List (Message loads))
    (chunks : List Bytes) (d : Dap) (hcut : d.buf ++ chunks.flatten = stream ms) (clock : ℕ → ℚ)
    (timeouts : List ℚ) (htimeouts : ∀ t ∈ timeouts, 0 ≤ t) (hcount : timeouts.length ≤ ms.length) :
    ∃ buf rest, Yields answer (readMsgs loads timeouts d) ⟨chunks.map some, clock⟩
        (.ok ((ms.take timeouts.length).map Message.msg, { d with buf := buf }))
        ⟨rest.map some, clock⟩ ∧
      rest <:+ chunks ∧ buf ++ rest.flatten = stream (ms.drop timeouts.length) := by
  induction timeouts generalizing ms chunks d with
  | nil => exact ⟨d.buf, chunks, yields_pure _ _, List.suffix_rfl, hcut⟩
  | cons timeout timeouts ih =>
    obtain ⟨htimeout, htimeouts⟩ := List.forall_mem_cons.mp htimeouts
    match ms with
    | [] => exact absurd hcount (Nat.not_succ_le_zero _)
    | m :: ms =>
      have hunread : d.buf ++ delivered (chunks.map some) = frame m.raw ++ stream ms := by
        rw [delivered_map_some, hcut, stream_cons]
      rcases readMsg_whole clock m.json htimeout d hunread with
        ⟨buf, inbox, hread, hrest, hsuffix, -⟩ | ⟨-, hmem⟩
      · obtain ⟨rest, hrest', rfl⟩ := exists_of_suffix_map hsuffix
        rw [delivered_map_some] at hrest
        obtain ⟨buf', rest', hreads, hsuffix', hkept⟩ :=
          ih ms rest { d with buf := buf } hrest htimeouts (Nat.le_of_succ_le_succ hcount)
        exact ⟨buf', rest', hread.bind (hreads.bind (yields_pure _ _)), hsuffix'.trans hrest', hkept⟩
      · obtain ⟨data, -, hnone⟩ := List.mem_map.mp hmem
        exact nomatch hnone

/-- Every body is read as the same response. -/
def loadsResponse (_ : Bytes) : Except Error Msg :=
  .ok ⟨some "response", none, some 1, true, some "initialize", none⟩

/-- `{}` -/
def emptyObject : Message loadsResponse := ⟨[123, 125], _, rfl⟩

/-- Two messages, cut in the middle of the first separator. -/
theorem readMsgs_chunked_two : ∃ buf rest,
    Yields answer (readMsgs loadsResponse [30, 30] init)
      ⟨[(stream [emptyObject, emptyObject]).take 18, (stream [emptyObject, emptyObject]).drop 18].map
        some, fun _ => 0⟩
      (.ok ([emptyObject.msg, emptyObject.msg], { init with buf := buf }))
      ⟨rest.map some, fun _ => 0⟩ ∧
    rest <:+
      [(stream [emptyObject, emptyObject]).take 18, (stream [emptyObject, emptyObject]).drop 18] ∧
    buf ++ rest.flatten = stream ([] : List (Message loadsResponse)) :=
  readMsgs_chunked loadsResponse [emptyObject, emptyObject] _ init
    (by simp [init]) (fun _ => 0) [30, 30] (by decide) (Nat.le_refl 2)

end Dap
