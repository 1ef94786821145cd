import Inmojomni.Ascii
import Inmojomni.Effect.Outcome
import Inmojomni.Text
import Mathlib.Algebra.Order.Ring.Rat
import Mathlib.Data.List.DropRight

/-!
# The DAP client

The client of the Debug Adapter Protocol in `tools/dap_client.py`. A message is a header with the
length, an empty line and a body in JSON. `_read_msg` keeps what it has received in `buf` and goes
on receiving until a whole message is there; `wait_response` and `wait_event` read messages until
the one that is awaited comes or the deadline is over.

JSON is a parameter: `loads` reads the body of a message and `dumps` writes that of a request. Of a
message the client looks at the fields in `Msg`.
-/

open Effect

namespace Dap

inductive Error
  | valueError
  | indexError
  | keyError (key : String)
  | jsonDecodeError
  | timedOut
  | timeoutError (message : String)
  | runtimeError (message : String)

/-- A message, with the fields that are there. A missing `success` counts as `False`. -/
structure Msg where
  type : Option String
  event : Option String
  requestSeq : Option ℤ
  success : Bool
  command : Option String
  message : Option String

structure Request (J : Type) where
  seq : ℕ
  command : String
  arguments : Option J

/-- What the client does outside itself. -/
inductive Op
  | sendall (data : Bytes)
  | settimeout (timeout : ℚ)
  | recv
  | monotonic

abbrev Op.Answer : Op → Type
  | .sendall _ => Unit
  | .settimeout _ => Unit
  | .recv => Bytes
  | .monotonic => ℚ

abbrev Client (α : Type) := Script Op.Answer Error α

def recv : Client Bytes := attempt Op.recv

def monotonic : Client ℚ := attempt Op.monotonic

/-- `msg[key]` -/
def field (key : String) : Option String → Except Error String
  | none => .error (.keyError key)
  | some v => .ok v

/-! ### Bytes -/

/-- CR LF CR LF -/
def blankLine : Bytes := [13, 10, 13, 10]

def contentLength : Bytes :=
  Ascii.bytes ['C', 'o', 'n', 't', 'e', 'n', 't', '-', 'L', 'e', 'n', 'g', 't', 'h']

/-- `b"Content-Length: %d"` -/
def header (n : ℕ) : Bytes := contentLength ++ 58 :: 32 :: Ascii.digits n

/-- What is sent for a message. -/
def frame (raw : Bytes) : Bytes := header raw.length ++ blankLine ++ raw

/-- `s.partition(b"\r\n\r\n")`, without the separator. -/
def partition (s : Bytes) : Bytes × Bytes :=
  match Text.find blankLine s with
  | none => (s, [])
  | some i => (s.take i, s.drop (i + blankLine.length))

def isSpace (b : BitVec 8) : Bool := b = 32 ∨ 9 ≤ b ∧ b ≤ 13

def strip (s : Bytes) : Bytes := (s.dropWhile isSpace).rdropWhile isSpace

/-- Digits, with single underscores between them. -/
def natOfBytes (s : Bytes) : Option ℕ :=
  if [] ∈ s.splitOn 95 then none
  else Numeral.value 10 Ascii.digitValue (s.splitOn 95).flatten

/-- Whether there is a minus sign, and what comes after the sign. -/
def splitSign (s : Bytes) : Bool × Bytes :=
  if s.head? = some 45 then (true, s.tail)
  else if s.head? = some 43 then (false, s.tail)
  else (false, s)

/-- `int(s)` -/
def intOfBytes (s : Bytes) : Except Error ℤ :=
  let (minus, t) := splitSign (strip s)
  match natOfBytes t with
  | none => .error .valueError
  | some n => .ok (if minus then -n else n)

/-- `int(header.split(b":")[1])` -/
def lengthOf (header : Bytes) : Except Error ℤ :=
  match (header.splitOn 58)[1]? with
  | none => .error .indexError
  | some s => intOfBytes s

/-- The index that a bound of a slice stands for: a negative one counts from the end. -/
def sliceIndex (s : Bytes) (n : ℤ) : ℕ := if n < 0 then (s.length + n).toNat else n.toNat

end Dap

/-! ### The client -/

structure Dap where
  buf : Bytes
  seq : ℕ
  events : List Dap.Msg
  responses : Option ℤ → Option Dap.Msg

namespace Dap

/-- A client that has just connected. -/
def init : Dap := ⟨[], 0, [], fun _ => none⟩

def send {J : Type} (dumps : Request J → Bytes) (command : String) (arguments : Option J) (d : Dap) :
    Client (ℕ × Dap) := do
  let seq := d.seq + 1
  let raw := dumps ⟨seq, command, arguments⟩
  attempt (Op.sendall (frame raw))
  return (seq, { d with seq := seq })

/-- `while not done(acc): acc += recv(65536)` -/
def receiveUntil (done : Bytes → Bool) (acc : Bytes) : Client Bytes :=
  Script.loop (fun acc => do
    if done acc then return .inr acc
    else
      let data ← recv
      return .inl (acc ++ data)) acc

section Json

variable (loads : Bytes → Except Error Msg)

/-- The two loops receive the header and the body. -/
def readMsg (timeout : ℚ) (d : Dap) : Client (Msg × Dap) := do
  attempt (Op.settimeout timeout)
  let buf ← receiveUntil (fun buf => (Text.find blankLine buf).isSome) d.buf
  let (header, rest) := partition buf
  let length ← Script.except (lengthOf header)
  let rest ← receiveUntil (fun rest => ¬ (rest.length : ℤ) < length) rest
  let msg ← Script.except (loads (rest.take (sliceIndex rest length)))
  return (msg, { d with buf := rest.drop (sliceIndex rest length) })

def dispatch (msg : Msg) (d : Dap) : Except Error Dap := do
  let type ← field "type" msg.type
  if type = "event" then return { d with events := d.events ++ [msg] }
  else if type = "response" then
    return { d with responses := Function.update d.responses msg.requestSeq (some msg) }
  else return d

section Await

variable {γ : Type} (deadline : ℚ) (waiting : Dap → Bool)
  (handle : Msg → Dap → Except Error (Dap ⊕ γ))

/-- One round of `while waiting(d) and time.monotonic() < deadline`, which reads a message and
handles it. -/
def awaitRound (d : Dap) : Client (Dap ⊕ (Dap ⊕ γ)) := do
  if waiting d then
    if (← monotonic) < deadline then
      let (msg, d) ← readMsg loads (deadline - (← monotonic)) d
      let r ← Script.except (handle msg d)
      return r.map id .inr
    else return .inr (.inl d)
  else return .inr (.inl d)

/-- The loop. It answers `inl` if the condition fails, and `inr` if a message ends the wait. -/
def untilDeadline (d : Dap) : Client (Dap ⊕ γ) :=
  Script.loop (awaitRound loads deadline waiting handle) d

end Await

/-- `wait_response` once the loop is over. -/
def popResponse (reqSeq : ℤ) (d : Dap) : Client (Msg × Dap) :=
  match d.responses (some reqSeq) with
  | none => throw (.timeoutError ("no response for request " ++ toString reqSeq))
  | some msg =>
    if msg.success then
      return (msg, { d with responses := Function.update d.responses (some reqSeq) none })
    else do
      let command ← Script.except (field "command" msg.command)
      throw (.runtimeError (command ++ " failed: " ++ msg.message.getD "None"))

def waitResponse (reqSeq : ℤ) (timeout : ℚ) (d : Dap) : Client (Msg × Dap) := do
  let deadline := (← monotonic) + timeout
  let r ← untilDeadline (γ := Empty) loads deadline (fun d => (d.responses (some reqSeq)).isNone)
    (fun msg d => (dispatch msg d).map .inl) d
  match r with
  | .inl d => popResponse reqSeq d

/-- The first loop of `wait_event`. -/
def popEvent (name : String) : List Msg → Except Error (Option (Msg × List Msg))
  | [] => return none
  | ev :: events => do
    if (← field "event" ev.event) = name then return some (ev, events)
    else
      let r ← popEvent name events
      return r.map fun p => (p.1, ev :: p.2)

/-- The body of the second loop, once a message is read. -/
def matchEvent (name : String) (msg : Msg) (d : Dap) : Except Error (Dap ⊕ Msg × Dap) := do
  let type ← field "type" msg.type
  let found ← if type = "event" then (field "event" msg.event).map (· == name) else pure false
  if found then return .inr (msg, d)
  else return .inl (← dispatch msg d)

def waitEvent (name : String) (timeout : ℚ) (d : Dap) : Client (Msg × Dap) := do
  match ← Script.except (popEvent name d.events) with
  | some (ev, events) => return (ev, { d with events := events })
  | none =>
    let deadline := (← monotonic) + timeout
    match ← untilDeadline loads deadline (fun _ => true) (matchEvent name) d with
    | .inl _ => throw (.timeoutError ("event " ++ name ++ " never arrived"))
    | .inr r => return r

end Json

/-! ### The connection -/

/-- What the next calls of `recv` answer, `none` where one times out, and what the next calls of
`time.monotonic` do. After that the peer has closed the connection. -/
structure World where
  inbox : List (Option Bytes)
  clock : ℕ → ℚ

def answer : (e : Op) → World → Except Error e.Answer × World
  | .sendall _, w => (.ok (), w)
  | .settimeout timeout, w => (if timeout < 0 then .error .valueError else .ok (), w)
  | .recv, w =>
    match w.inbox with
    | [] => (.ok [], w)
    | none :: inbox => (.error .timedOut, { w with inbox := inbox })
    | some data :: inbox => (.ok data, { w with inbox := inbox })
  | .monotonic, w => (.ok (w.clock 0), { w with clock := fun k => w.clock (k + 1) })

end Dap
