import Inmojomni.Effect.History
import Inmojomni.Effect.RelyGuarantee
import Inmojomni.Mmio
import Inmojomni.Numeral
import Inmojomni.Text
import Mathlib.Algebra.Group.Nat.Defs
import Mathlib.Data.List.Basic
import Mathlib.Data.Set.Basic

/-!
# The verdict of the on-target suite

The firmware of the suite runs its tests and writes results into a mailbox in RAM; the host polls
the mailbox over the debug probe, and when it says that the suite is done reads the results and
tells which tests have failed. The two share nothing but the memory, in which the host may read at
any moment what the firmware has half written.

`verdict_exact` says when the host is right: RAM survives a reset, so it takes that the status word
does not say `done` from an earlier run when the firmware starts. Then the failures that the host
reports are those of this run, one for each test that has failed, in order. `verdict_stale` is a run
in which the old status is still there, and a suite whose test fails passes. No two failures have
the same message (`Failure.text_injective`).
-/

open Effect

namespace Hil

/-! ### The mailbox -/

def mailbox : Word := 0x20030000

def magic : Word := 0x4D4F4A4F

def statusRunning : Word := 1

def statusDone : Word := 2

def resultBase : Word := mailbox + 0x20

def pass : Word := 0x600D0001

def fail : Word := 0xBAD00001

/-- What firmware and host do that matters to the mailbox. -/
inductive SuiteOp
  | write (addr v : Word)
  /-- Run test `i`. -/
  | test (i : ℕ)
  /-- Read a word over SWD. -/
  | read (addr : Word)
  /-- `time.monotonic() < deadline` -/
  | beforeDeadline

/-- How they are answered. -/
def SuiteOp.Answer : SuiteOp → Type
  | write _ _ => Unit
  | test _ => Bool
  | read _ => Word
  | beforeDeadline => Bool

def write (addr v : Word) : Prog SuiteOp.Answer Unit := Prog.call (SuiteOp.write addr v)

def test (i : ℕ) : Prog SuiteOp.Answer Bool := Prog.call (SuiteOp.test i)

def read (addr : Word) : Prog SuiteOp.Answer Word := Prog.call (SuiteOp.read addr)

def beforeDeadline : Prog SuiteOp.Answer Bool := Prog.call SuiteOp.beforeDeadline

/-! ### The firmware -/

def report (i : ℕ) (ok : Bool) : Prog SuiteOp.Answer Unit :=
  if ok then write (resultBase + BitVec.ofNat 32 i * 4) pass
  else write (resultBase + BitVec.ofNat 32 i * 4) fail

/-- The suite of `n` tests. Behind it the heartbeat goes on for ever. -/
def start {α : Type} (n : ℕ) : Prog SuiteOp.Answer α := do
  write (mailbox + 0x00) magic
  write (mailbox + 0x04) statusRunning
  write (mailbox + 0x08) (BitVec.ofNat 32 n)
  Prog.forRange (fun i => do report i (← test i)) 0 n
  write (mailbox + 0x04) statusDone
  Prog.loop (fun beats : Word => do
    write (mailbox + 0x0C) beats
    return .inl (beats + 1)) 0

/-! ### The host -/

/-- What the host reports. -/
inductive Failure
  | noMagic (got : Word)
  | notDone (status : Word)
  | count (n : Word) (expected : ℕ)
  | result (name : String) (val : Word)
  | heartbeat (hb : Word)
  deriving DecidableEq

/-- A word as Python's `#010x` prints it. -/
def hex (v : Word) : String :=
  "0x" ++ String.ofList ((List.range 8).map fun i => Nat.digitChar (v.toNat / 16 ^ (7 - i) % 16))

/-- The message, piece by piece. -/
def Failure.pieces : Failure → List String
  | noMagic got => ["mailbox magic never appeared (got ", hex got,
      ") — firmware crashed before init?"]
  | notDone status => ["suite never finished (status=", toString status.toNat, ") — hung test?"]
  | count n expected => ["test count ", toString n.toNat, " != expected ", toString expected]
  | result name val => ["[target] ", name, ": result word ", hex val]
  | heartbeat hb => ["heartbeat stuck at ", toString hb.toNat, " — firmware not running"]

def Failure.text (f : Failure) : String := String.join f.pieces

/-- The names of the tests. -/
def testNames : List String :=
  ["u32 arithmetic & wrap", "u32 division (libgcc __aeabi_uidiv)", "u64 ops on 32-bit core",
    "float32 soft-float (libgcc)", "SIMD[uint32, 4] on M0+", "comptime for unroll",
    "GPIO15 internal loopback", "GPIO25 (LED) internal loopback", "timer sleep_us bounds",
    "GPIO pull-up / pull-down", "GPIO output-disable override", "GPIO edge event latch & ack",
    "GPIO funcsel round-trip", "GPIO pad config (drive/schmitt)",
    "PIO state machine toggling a pin", "TIMER ALARM0 IRQ via NVIC (2 fires)",
    "RTT control block + message", "GPIO EDGE_HIGH -> IO_IRQ_BANK0 (2 fires)",
    "PWM 12 kHz 50% (counter + pad readback)", "ADC temp sensor (plausible + stable)",
    "UART0 internal loopback (LBE)", "PIO side-set + forward label (edge count)",
    "PIO comptime-assembled program (flash constant)",
    "PLL_SYS 125 MHz (frequency counter) and back to 12 MHz",
    "spinlock: 2x20k contended increments == 40000", "inter-core FIFO ping-pong (5 rounds)",
    "core 1 launched into Mojo (flag + heartbeat)"]

def numTests : ℕ := 27

/-- Firmware and host agree on the number of tests. -/
theorem length_testNames : testNames.length = numTests := rfl

/-- `count` words from `addr` on. -/
def readWords : Word → ℕ → Prog SuiteOp.Answer (List Word)
  | _, 0 => .ret []
  | addr, count + 1 => do
    let w ← read addr
    let ws ← readWords (addr + 4) count
    return w :: ws

/-- Poll magic and status until the suite is done or the time is over. -/
def poll : Prog SuiteOp.Answer (Word × Word) :=
  Prog.loop (fun seen : Word × Word => do
    if ← beforeDeadline then
      let m ← read mailbox
      let status ← read (mailbox + 4)
      if m = magic ∧ status = statusDone then return .inr (m, status) else return .inl (m, status)
    else return .inr seen) (0, 0)

/-- What the host says to a result word. -/
def judge (names : List String) (p : Word × ℕ) : Option Failure :=
  if p.1 = pass then none
  else some (.result (names.getD p.2 ("test " ++ toString p.2)) p.1)

/-- Collect the results of a suite that is done. -/
def collect (names : List String) : Prog SuiteOp.Answer (List Failure) := do
  let n ← read (mailbox + 0x08)
  let fails := if n.toNat ≠ names.length then [.count n names.length] else []
  let results ← readWords (mailbox + 0x20) (min n.toNat names.length)
  let fails := fails ++ results.zipIdx.filterMap (judge names)
  let hb1 ← read (mailbox + 0x0C)
  let hb2 ← read (mailbox + 0x0C)
  return if hb2 = hb1 then fails ++ [.heartbeat hb1] else fails

/-- Wait for the suite and collect its results. Answers the failures, whose messages the host
prints. -/
def runMailboxSuite (names : List String) : Prog SuiteOp.Answer (List Failure) := do
  let (m, status) ← poll
  if m ≠ magic then return [.noMagic m]
  else if status ≠ statusDone then return [.notDone status]
  else collect names

/-! ### The messages -/

def hexValue (c : Char) : Option ℕ := (List.range 16).find? fun d => Nat.digitChar d = c

theorem hexValue_digitChar {d : ℕ} (h : d < 16) : hexValue (Nat.digitChar d) = some d := by
  revert d
  decide

theorem hex_injective : Function.Injective hex := by
  intro v w h
  have hread : ∀ u : Word, Numeral.value 16 hexValue ((List.range 8).map fun i =>
      Nat.digitChar (u.toNat / 16 ^ (7 - i) % 16)) = some u.toNat := fun u =>
    Numeral.value_map_range u.isLt fun i _ => hexValue_digitChar (Nat.mod_lt _ (by decide))
  have hdigits := String.ofList_injective ((String.append_right_inj _).mp h)
  have hval := hread v
  rw [hdigits, hread] at hval
  exact BitVec.eq_of_toNat_eq (Option.some.inj hval).symm

example : hex fail = "0xbad00001" := by decide

theorem length_toList_hex (v : Word) : (hex v).toList.length = 10 := by
  simp [hex]

theorem toString_injective : Function.Injective (toString : ℕ → String) := by
  intro m n h
  have hread := congrArg (fun digits => Nat.ofDigitChars 10 digits.toList 0) h
  simpa using hread

theorem space_notMem_toString (n : ℕ) : ' ' ∉ (toString n).toList := by
  rw [Nat.toString_eq_repr, Nat.toList_repr]
  intro h
  exact absurd (Nat.isDigit_of_mem_toDigits (by decide) (by decide) h) (by decide)

/-- The first number of the message about the count ends at the first space. -/
theorem count_inj {m n m' n' : ℕ}
    (h : toString m ++ (" != expected " ++ toString n) =
      toString m' ++ (" != expected " ++ toString n')) : m = m' ∧ n = n' := by
  have hsplit : ∀ m n : ℕ, (toString m ++ (" != expected " ++ toString n)).toList =
      (toString m).toList ++ [' '] ++ ("!= expected ".toList ++ (toString n).toList) := by
    intro m n
    rw [String.toList_append, String.toList_append, List.append_assoc]
    rfl
  have hlist := congrArg String.toList h
  rw [hsplit, hsplit] at hlist
  have hm := (Text.append_singleton_isPrefix_iff (space_notMem_toString m)
    (space_notMem_toString m')).mp ⟨_, hlist.trans (List.append_assoc ..)⟩
  rw [hm] at hlist
  have hn := List.append_cancel_left (List.append_cancel_left hlist)
  exact ⟨toString_injective (String.toList_injective hm),
    toString_injective (String.toList_injective hn)⟩

/-- The name of a test may be anything: the word behind it has a fixed length. -/
theorem result_inj {name name' : String} {v w : Word}
    (h : name ++ (": result word " ++ hex v) = name' ++ (": result word " ++ hex w)) :
    name = name' ∧ v = w := by
  have hlist := congrArg String.toList h
  rw [← String.append_assoc, ← String.append_assoc, String.toList_append (t := hex v),
    String.toList_append (t := hex w)] at hlist
  obtain ⟨hname, hval⟩ :=
    List.append_inj' hlist ((length_toList_hex v).trans (length_toList_hex w).symm)
  exact ⟨(String.append_left_inj _).mp (String.toList_injective hname),
    hex_injective (String.toList_injective hval)⟩

/-- The first letter of the message. -/
def Failure.initial : Failure → Char
  | noMagic _ => 'm'
  | notDone _ => 's'
  | count _ _ => 't'
  | result _ _ => '['
  | heartbeat _ => 'h'

theorem Failure.head?_text (f : Failure) : f.text.toList.head? = some f.initial := by
  cases f <;> simp [text, pieces, initial]

/-- The messages tell the failures apart. -/
theorem Failure.text_injective : Function.Injective text := by
  intro f g h
  have hinitial : f.initial = g.initial := by
    rw [← Option.some_inj, ← head?_text, ← head?_text, h]
  cases f <;> cases g <;> first
    | simp [initial] at hinitial; done
    | simp only [text, pieces, String.join_cons, String.join_nil, String.append_empty,
        String.append_right_inj, String.append_left_inj] at h
  case noMagic.noMagic got got' => rw [hex_injective h]
  case notDone.notDone status status' => rw [BitVec.eq_of_toNat_eq (toString_injective h)]
  case count.count n expected n' expected' =>
    obtain ⟨hn, hexpected⟩ := count_inj h
    rw [BitVec.eq_of_toNat_eq hn, hexpected]
  case result.result name val name' val' =>
    obtain ⟨hname, hval⟩ := result_inj h
    rw [hname, hval]
  case heartbeat.heartbeat hb hb' => rw [BitVec.eq_of_toNat_eq (toString_injective h)]

/-! ### Side by side -/

inductive Side
  | target
  | host
  deriving DecidableEq

/-- Word `k` of the mailbox. -/
def word (k : ℕ) : Word := mailbox + BitVec.ofNat 32 (4 * k)

/-- The words of the mailbox of a suite of `n` tests. -/
def Mailbox (n : ℕ) : Set Word := { addr | ∃ k < 8 + n, addr = word k }

/-- The memory. The tests, and the other core, write only outside of the mailbox. -/
def memory (n : ℕ) : Machine Side SuiteOp.Answer (Word → Word) where
  access _ e m r m' := match e, r with
    | .write addr v, _ => m' = Function.update m addr v
    | .test _, _ => ∀ addr ∈ Mailbox n, m' addr = m addr
    | .read addr, (r : Word) => r = m addr ∧ m' = m
    | .beforeDeadline, _ => m' = m
  env m m' := ∀ addr ∈ Mailbox n, m' addr = m addr

/-- Which tests have passed so far, and which have failed. -/
abbrev Verdicts := ℕ → Option Bool

/-- The memory, and the verdicts. -/
abbrev State := (Word → Word) × Verdicts

/-- A test is over. -/
def note (_ : Side) : (e : SuiteOp) → (Word → Word) → e.Answer → Verdicts → Verdicts
  | .test i, _, (ok : Bool), vs => Function.update vs i (some ok)
  | _, _, _, vs => vs

/-- The memory with the verdicts. -/
abbrev rig (n : ℕ) : Machine Side SuiteOp.Answer State :=
  (memory n).track note

/-- The two programs. -/
def sides (names : List String) : Side → Prog SuiteOp.Answer (List Failure)
  | .target => start names.length
  | .host => runMailboxSuite names

/-! ### What the sides owe each other -/

/-- The suite says that it is done. -/
def Done (s : State) : Prop := s.1 (word 1) = statusDone

/-- The verdict of test `i` is in its result word. -/
def Reported (i : ℕ) (s : State) : Prop :=
  ∃ ok, s.2 i = some ok ∧ s.1 (word (8 + i)) = if ok then pass else fail

/-- The mailbox is complete. -/
structure Complete (n : ℕ) (s : State) : Prop where
  magic : s.1 (word 0) = magic
  count : s.1 (word 2) = BitVec.ofNat 32 n
  reported : ∀ i < n, Reported i s

/-- A mailbox that is done is complete, and stays as it is but for the heartbeat. -/
def Publishes (n : ℕ) (s s' : State) : Prop :=
  ((Done s → Complete n s) → Done s' → Complete n s') ∧
    (Done s → s'.2 = s.2 ∧ ∀ k < 8 + n, k ≠ 3 → s'.1 (word k) = s.1 (word k))

/-- Nothing happens to the mailbox. -/
def Leaves (n : ℕ) (s s' : State) : Prop :=
  s'.2 = s.2 ∧ ∀ k < 8 + n, s'.1 (word k) = s.1 (word k)

section Leaves

variable {n : ℕ} {s s' : State}

theorem Leaves.done (h : Leaves n s s') : Done s' ↔ Done s := by
  rw [Done, Done, h.2 1 (by omega)]

theorem Leaves.reported (h : Leaves n s s') {i : ℕ} (hi : i < n) (hr : Reported i s) :
    Reported i s' := by
  obtain ⟨ok, hok, hword⟩ := hr
  exact ⟨ok, by rw [h.1, hok], by rw [h.2 (8 + i) (by omega), hword]⟩

/-- Neither the status nor the heartbeat matters to a complete mailbox. -/
theorem Complete.congr (hc : Complete n s) (hverdicts : s'.2 = s.2)
    (hword : ∀ k < 8 + n, k ≠ 1 → k ≠ 3 → s'.1 (word k) = s.1 (word k)) : Complete n s' := by
  refine ⟨(hword 0 (by omega) (by omega) (by omega)).trans hc.magic,
    (hword 2 (by omega) (by omega) (by omega)).trans hc.count, fun i hi => ?_⟩
  obtain ⟨ok, hok, hres⟩ := hc.reported i hi
  exact ⟨ok, by rw [hverdicts, hok], (hword _ (by omega) (by omega) (by omega)).trans hres⟩

theorem Leaves.complete (h : Leaves n s s') (hc : Complete n s) : Complete n s' :=
  hc.congr h.1 fun k hk _ _ => h.2 k hk

theorem Leaves.publishes (h : Leaves n s s') : Publishes n s s' :=
  ⟨fun hc hd => h.complete (hc (h.done.mp hd)), fun _ => ⟨h.1, fun k hk _ => h.2 k hk⟩⟩

theorem Leaves.refl (n : ℕ) (s : State) : Leaves n s s :=
  ⟨rfl, fun _ _ => rfl⟩

end Leaves

/-- The firmware publishes, and the host only looks on. -/
def protocol (n : ℕ) : Protocol (rig n) where
  rely
    | .target => Leaves n
    | .host => Publishes n
  guar
    | .target => fun _ s _ s' => Publishes n s s'
    | .host => fun _ s _ s' => Leaves n s s'
  guar_rely := by
    rintro (_ | _) (_ | _) e s s' r htu - hg
    · exact absurd rfl htu
    · exact hg
    · exact hg
    · exact absurd rfl htu
  env_rely := by
    rintro t s s' ⟨henv, hs'⟩
    have hleaves : Leaves n s s' := ⟨hs', fun k hk => henv _ ⟨k, hk, rfl⟩⟩
    cases t with
    | target => exact hleaves
    | host => exact hleaves.publishes

/-! ### The firmware's part -/

theorem word_ne {j k : ℕ} (hjk : j ≠ k) (hj : j < 2 ^ 30) (hk : k < 2 ^ 30) : word j ≠ word k := by
  intro h
  have hnat : (BitVec.ofNat 32 (4 * j)).toNat = (BitVec.ofNat 32 (4 * k)).toNat :=
    congrArg BitVec.toNat ((BitVec.add_right_inj mailbox).mp h)
  rw [BitVec.toNat_ofNat, BitVec.toNat_ofNat] at hnat
  omega

theorem result_eq (i : ℕ) : resultBase + BitVec.ofNat 32 i * 4 = word (8 + i) := by
  have hfour : BitVec.ofNat 32 (4 * i) = BitVec.ofNat 32 i * 4 := by
    rw [Nat.mul_comm, BitVec.ofNat_mul]
    rfl
  rw [word, resultBase, Nat.mul_add, BitVec.ofNat_add, ← BitVec.add_assoc, hfour]
  rfl

/-- A store to word `k`. -/
def stored (k : ℕ) (v : Word) (s : State) : State :=
  (Function.update s.1 (word k) v, s.2)

theorem stored_self (k : ℕ) (v : Word) (s : State) :
    (stored k v s).1 (word k) = v := Function.update_self _ _ _

theorem stored_of_ne {j k : ℕ} (hjk : j ≠ k) (hj : j < 2 ^ 30) (hk : k < 2 ^ 30) (v : Word)
    (s : State) : (stored k v s).1 (word j) = s.1 (word j) :=
  Function.update_of_ne (word_ne hjk hj hk) _ _

/-- The mailbox after `i` tests: everything is in place but the status. -/
structure Staged (n i : ℕ) (s : State) : Prop where
  notDone : ¬ Done s
  magic : s.1 (word 0) = magic
  count : s.1 (word 2) = BitVec.ofNat 32 n
  reported : ∀ j < i, Reported j s

section Target

variable {n : ℕ} {P : State → Prop}

theorem stable_notDone : Stable (protocol n) .target fun s => ¬ Done s :=
  fun _ _ hr h hd => h ((Leaves.done hr).mp hd)

theorem stable_done : Stable (protocol n) .target Done := fun _ _ hr h => (Leaves.done hr).mpr h

theorem Staged.stable {i : ℕ} (hi : i ≤ n) : Stable (protocol n) .target (Staged n i) := by
  intro s s' (hr : Leaves n s s') h
  exact ⟨fun hd => h.notDone (hr.done.mp hd), (hr.2 0 (by omega)).trans h.magic,
    (hr.2 2 (by omega)).trans h.count, fun j hj => hr.reported (by omega) (h.reported j hj)⟩

/-- While the suite is not done, whatever leaves it so is right. -/
theorem publishes_of_not_done {s s' : State} (h : ¬ Done s) (h' : ¬ Done s') :
    Publishes n s s' := ⟨fun _ hd => absurd hd h', fun hd => absurd hd h⟩

theorem not_done_stored {s : State} (h : ¬ Done s) {k : ℕ} (hk : k < 2 ^ 30)
    {v : Word} (hv : k = 1 → v ≠ statusDone) : ¬ Done (stored k v s) := by
  by_cases hk1 : k = 1
  · subst hk1
    rw [Done, stored_self]
    exact hv rfl
  · rw [Done, stored_of_ne (Ne.symm hk1) (by decide) hk]
    exact h

/-- A store of the firmware before the suite is done. -/
theorem write_spec {Q : State → Prop} (hP : Stable (protocol n) .target P)
    (hQ : Stable (protocol n) .target Q) {k : ℕ} (hk : k < 2 ^ 30) {addr v : Word}
    (haddr : addr = word k) (hv : k = 1 → v ≠ statusDone) (hnot : ∀ s, P s → ¬ Done s)
    (hpost : ∀ s, P s → ¬ Done (stored k v s) → Q (stored k v s)) :
    Triple (protocol n) .target P (write addr v) fun _ => Q := by
  subst haddr
  refine Triple.call hP (fun _ => hQ) ?_
  rintro s (r : Unit) s' hs ⟨hmem, hnote⟩
  obtain rfl : s' = stored k v s := Prod.ext hmem hnote
  have hdone := not_done_stored (hnot s hs) hk hv
  exact ⟨publishes_of_not_done (hnot s hs) hdone, hpost s hs hdone⟩

/-- The header. -/
theorem header_spec {Q : List Failure → State → Prop}
    {rest : Prog SuiteOp.Answer (List Failure)}
    (hrest : Triple (protocol n) .target (Staged n 0) rest Q) :
    Triple (protocol n) .target (fun s => ¬ Done s)
      ((write (mailbox + 0x00) magic).bind fun _ => (write (mailbox + 0x04) statusRunning).bind
        fun _ => (write (mailbox + 0x08) (BitVec.ofNat 32 n)).bind fun _ => rest) Q := by
  have hmagic : Stable (protocol n) .target fun s => ¬ Done s ∧ s.1 (word 0) = magic := by
    refine stable_notDone.and fun s s' (hr : Leaves n s s') h => ?_
    rw [hr.2 0 (by omega)]
    exact h
  refine (write_spec stable_notDone hmagic (k := 0) (by decide) rfl (by decide)
    (fun s h => h) fun s h hd => ⟨hd, stored_self _ _ _⟩).bind fun _ => ?_
  refine (write_spec hmagic hmagic (k := 1) (by decide) rfl (by decide)
    (fun s h => h.1) fun s h hd => ⟨hd, ?_⟩).bind fun _ => ?_
  · rw [stored_of_ne (by decide) (by decide) (by decide)]
    exact h.2
  refine (write_spec hmagic (Staged.stable (Nat.zero_le n)) (k := 2) (by decide) rfl
    (fun h => absurd h (by decide)) (fun s h => h.1) fun s h hd =>
      ⟨hd, ?_, stored_self _ _ _, fun j hj => absurd hj (Nat.not_lt_zero j)⟩).bind fun _ => hrest
  rw [stored_of_ne (by decide) (by decide) (by decide)]
  exact h.2

variable (hn : n < 2 ^ 29)

include hn

/-- One test: its verdict, and then the word that says it. -/
theorem round_spec {i : ℕ} (hi : i < n) :
    Triple (protocol n) .target (Staged n i) ((test i).bind (report i))
      fun _ => Staged n (i + 1) := by
  have hst : ∀ ok : Bool, Stable (protocol n) .target fun s => Staged n i s ∧ s.2 i = some ok := by
    refine fun ok => (Staged.stable hi.le).and fun s s' (hr : Leaves n s s') h => ?_
    rw [hr.1]
    exact h
  refine Triple.bind (Q := fun (ok : Bool) s => Staged n i s ∧ s.2 i = some ok) ?_ fun ok => ?_
  · refine Triple.call (Staged.stable hi.le) hst ?_
    rintro s (ok : Bool) s' h ⟨hmem, hnote⟩
    have hword : ∀ k < 8 + n, s'.1 (word k) = s.1 (word k) := fun k hk => hmem _ ⟨k, hk, rfl⟩
    have hdone : ¬ Done s' := fun hd => h.notDone ((hword 1 (by omega)).symm.trans hd)
    have hnote' : s'.2 = Function.update s.2 i (some ok) := hnote
    refine ⟨publishes_of_not_done h.notDone hdone, ⟨hdone, ?_, ?_, fun j hj => ?_⟩, ?_⟩
    · exact (hword 0 (by omega)).trans h.magic
    · exact (hword 2 (by omega)).trans h.count
    · obtain ⟨ok', hok', hres⟩ := h.reported j hj
      refine ⟨ok', ?_, (hword _ (by omega)).trans hres⟩
      rw [hnote', Function.update_of_ne (by omega)]
      exact hok'
    · rw [hnote', Function.update_self]
  · -- one store, of the word for this verdict
    have hreport : (report i ok : Prog SuiteOp.Answer Unit)
        = write (resultBase + BitVec.ofNat 32 i * 4) (if ok then pass else fail) := by
      cases ok <;> rfl
    rw [hreport]
    refine write_spec (hst ok) (Staged.stable hi) (k := 8 + i) (by omega) (result_eq i) (by omega)
      (fun s h => h.1.notDone) fun s h hd => ?_
    have hkeep : ∀ j, j ≠ 8 + i → j < 8 + n →
        (stored (8 + i) (if ok then pass else fail) s).1 (word j) = s.1 (word j) :=
      fun j hj hlt => stored_of_ne hj (by omega) (by omega) _ _
    refine ⟨hd, (hkeep 0 (by omega) (by omega)).trans h.1.magic,
      (hkeep 2 (by omega) (by omega)).trans h.1.count, fun j hj => ?_⟩
    by_cases hji : j = i
    · subst hji
      exact ⟨ok, h.2, stored_self _ _ _⟩
    · obtain ⟨ok', hok', hres⟩ := h.1.reported j (by omega)
      exact ⟨ok', hok', (hkeep _ (by omega) (by omega)).trans hres⟩

/-- The status is the last word of the mailbox to be written. -/
theorem publish_spec :
    Triple (protocol n) .target (Staged n n) (write (mailbox + 0x04) statusDone) fun _ => Done := by
  refine Triple.call (Staged.stable le_rfl) (fun _ => stable_done) ?_
  rintro s (r : Unit) s' h ⟨hmem, hnote⟩
  obtain rfl : s' = stored 1 statusDone s := Prod.ext hmem hnote
  have hkeep : ∀ j, j ≠ 1 → j < 8 + n → (stored 1 statusDone s).1 (word j) = s.1 (word j) :=
    fun j hj hlt => stored_of_ne hj (by omega) (by decide) _ _
  have hcomplete : Complete n s := ⟨h.magic, h.count, h.reported⟩
  exact ⟨⟨fun _ _ => hcomplete.congr rfl fun j hj hj1 _ => hkeep j hj1 hj,
    fun hd => absurd hd h.notDone⟩, stored_self _ _ _⟩

/-- The heartbeat touches nothing else. -/
theorem heartbeat_spec (beats : Word) (Q : List Failure → State → Prop) :
    Triple (protocol n) .target Done
      (Prog.loop (fun beats : Word => (write (mailbox + 0x0C) beats).bind fun _ =>
        .ret (.inl (beats + 1))) beats) Q := by
  refine Triple.iter (I := fun _ => Done) (J := fun _ _ => False) (fun _ => stable_done)
    (fun b => ?_) (fun _ => Triple.ret (fun _ _ _ h => h) fun _ h => h.elim) beats
  refine Triple.bind (Q := fun _ => Done) (Triple.call stable_done (fun _ => stable_done) ?_)
    fun _ => .ret stable_done fun _ h => h
  rintro s (r : Unit) s' h ⟨hmem, hnote⟩
  obtain rfl : s' = stored 3 b s := Prod.ext hmem hnote
  have hkeep : ∀ j, j ≠ 3 → j < 8 + n → (stored 3 b s).1 (word j) = s.1 (word j) :=
    fun j hj hlt => stored_of_ne hj (by omega) (by decide) _ _
  exact ⟨⟨fun hc _ => (hc h).congr rfl fun j hj _ hj3 => hkeep j hj3 hj,
    fun _ => ⟨rfl, fun k hk hk3 => hkeep k hk3 hk⟩⟩, (hkeep 1 (by omega) (by omega)).trans h⟩

theorem start_spec (Q : List Failure → State → Prop) :
    Triple (protocol n) .target (fun s => ¬ Done s) (start n) Q := by
  refine header_spec ?_
  refine (Triple.forRange (I := fun i => Staged n i) (Staged.stable le_rfl)
    fun i hi => round_spec hn hi).bind fun _ => ?_
  exact (publish_spec hn).bind fun _ => heartbeat_spec hn 0 Q

end Target

/-! ### The host's part -/

section Host

variable {n : ℕ} {P : State → Prop}

/-- The suite is done, and the mailbox complete. -/
def Published (n : ℕ) (s : State) : Prop := Done s ∧ Complete n s

/-- What the host goes by: a mailbox that is done is complete, and it has seen that it is done if
it has seen the words for it. -/
def Seen (n : ℕ) (seen : Word × Word) (s : State) : Prop :=
  (Done s → Complete n s) ∧ (seen.1 = magic ∧ seen.2 = statusDone → Done s)

theorem Publishes.done {s s' : State} (h : Publishes n s s') (hd : Done s) :
    Done s' := ((h.2 hd).2 1 (by omega) (by decide)).trans hd

theorem Published.stable : Stable (protocol n) .host (Published n) := by
  intro s s' (hr : Publishes n s s') h
  have hd := hr.done h.1
  exact ⟨hd, hr.1 (fun _ => h.2) hd⟩

theorem Seen.stable (seen : Word × Word) : Stable (protocol n) .host (Seen n seen) := by
  intro s s' (hr : Publishes n s s') h
  exact ⟨hr.1 h.1, fun hseen => hr.done (h.2 hseen)⟩

/-- The host reads a word. -/
theorem read_spec {K : Word → State → Prop} (hP : Stable (protocol n) .host P)
    (hK : ∀ r, Stable (protocol n) .host (K r)) {addr : Word} (h : ∀ s, P s → K (s.1 addr) s) :
    Triple (protocol n) .host P (read addr) K := by
  refine Triple.call hP hK ?_
  rintro s (r : Word) s' hs ⟨⟨hr, hmem⟩, hnote⟩
  obtain rfl : s' = s := Prod.ext hmem hnote
  subst hr
  exact ⟨.refl n s', h s' hs⟩

theorem poll_spec : Triple (protocol n) .host (Seen n (0, 0)) poll (Seen n) := by
  refine Triple.loop (I := Seen n) (J := Seen n) Seen.stable Seen.stable (fun seen => ?_) (0, 0)
  refine Triple.bind (Q := fun _ => Seen n seen) ?_ fun before => ?_
  · refine Triple.call (Seen.stable seen) (fun _ => Seen.stable seen) ?_
    rintro s (r : Bool) s' hs ⟨hmem, hnote⟩
    obtain rfl : s' = s := Prod.ext hmem hnote
    exact ⟨.refl n s', hs⟩
  · cases before with
    | false => exact .ret (Seen.stable seen) fun s hs => hs
    | true =>
      have hinv : Stable (protocol n) .host fun s => Done s → Complete n s :=
        fun s s' (hr : Publishes n s s') h => hr.1 h
      refine (read_spec (Seen.stable seen) (fun _ => hinv) fun s hs => hs.1).bind fun m => ?_
      refine (read_spec (K := fun status => Seen n (m, status)) hinv
        (fun _ => Seen.stable _) fun s hs => ⟨hs, fun hseen => hseen.2⟩).bind fun status => ?_
      split_ifs
      · exact .ret (Seen.stable _) fun s hs => hs
      · exact .ret (Seen.stable _) fun s hs => hs

theorem word_add_four (k : ℕ) : word k + 4 = word (k + 1) := by
  rw [word, word, Nat.mul_add, BitVec.ofNat_add, ← BitVec.add_assoc]
  rfl

/-- What the host has read of a published mailbox stays there. -/
theorem stable_word {k : ℕ} (hk : k < 8 + n) (hk3 : k ≠ 3) (w : Word) :
    Stable (protocol n) .host fun s => Published n s ∧ s.1 (word k) = w := by
  intro s s' hr h
  exact ⟨Published.stable s s' hr h.1, (((hr : Publishes n s s').2 h.1.1).2 k hk hk3).trans h.2⟩

/-- The words that are read of a published mailbox are those that are there for good. -/
theorem readWords_spec {count : ℕ} : ∀ {k : ℕ} {P : State → Prop},
    Stable (protocol n) .host P → (∀ s, P s → Published n s) → 8 ≤ k → k + count ≤ 8 + n →
    Triple (protocol n) .host P (readWords (word k) count) fun ws s =>
      P s ∧ ws = (List.range count).map fun i => s.1 (word (k + i)) := by
  induction count with
  | zero => exact fun hP _ _ _ => .ret hP fun s hs => ⟨hs, rfl⟩
  | succ count ih =>
    intro k P hP hpub hk hcount
    have hword : ∀ w, Stable (protocol n) .host fun s => P s ∧ s.1 (word k) = w := by
      intro w s s' hr h
      exact ⟨hP s s' hr h.1, (stable_word (by omega) (by omega) w s s' hr ⟨hpub s h.1, h.2⟩).2⟩
    have hwords : ∀ ws : List Word, Stable (protocol n) .host fun s => P s ∧
        ws = (List.range (count + 1)).map fun i => s.1 (word (k + i)) := by
      intro ws s s' hr h
      refine ⟨hP s s' hr h.1, h.2.trans (List.map_congr_left fun i hi => ?_)⟩
      have hi' := List.mem_range.mp hi
      exact (((hr : Publishes n s s').2 (hpub s h.1).1).2 (k + i) (by omega) (by omega)).symm
    refine (read_spec hP hword fun s hs => ⟨hs, rfl⟩).bind fun w => ?_
    rw [word_add_four]
    refine (ih (hword w) (fun s hs => hpub s hs.1) (by omega) (by omega)).bind fun ws => ?_
    have hcons : ∀ s : State, (P s ∧ s.1 (word k) = w) ∧
        ws = (List.range count).map (fun i => s.1 (word (k + 1 + i))) →
        P s ∧ w :: ws = (List.range (count + 1)).map fun i => s.1 (word (k + i)) := by
      rintro s ⟨⟨hs, rfl⟩, rfl⟩
      refine ⟨hs, ?_⟩
      rw [List.range_succ_eq_map, List.map_cons, List.map_map]
      refine congrArg (List.cons _) (List.map_congr_left fun i _ => ?_)
      rw [Function.comp_apply, Nat.succ_eq_add_one, Nat.add_right_comm, Nat.add_assoc]
    exact (Triple.ret (hwords (w :: ws)) fun s hs => hs).pre hcons

/-- The tests that have not passed, as the host reports them. -/
def failing (names : List String) (vs : Verdicts) : List Failure :=
  names.zipIdx.filterMap fun p => if vs p.2 = some true then none else some (.result p.1 fail)

/-- A list by its indices. -/
theorem zipIdx_map_range {α : Type} (f : ℕ → α) (n : ℕ) :
    ((List.range n).map f).zipIdx = (List.range n).map fun i => (f i, i) := by
  refine List.ext_getElem (by simp) fun i h₁ h₂ => ?_
  simp

/-- The results are the verdicts. -/
theorem judge_results {names : List String} {s : State}
    (h : Complete names.length s) :
    ((List.range names.length).map fun i => s.1 (word (8 + i))).zipIdx.filterMap (judge names)
      = failing names s.2 := by
  have hnames : names = (List.range names.length).map fun i =>
      names.getD i ("test " ++ toString i) := by
    refine List.ext_getElem (by simp) fun i h₁ h₂ => ?_
    simp [h₁]
  rw [failing, zipIdx_map_range]
  conv_rhs => rw [hnames, zipIdx_map_range]
  rw [List.filterMap_map, List.filterMap_map]
  refine List.filterMap_congr fun i hi => ?_
  obtain ⟨ok, hok, hres⟩ := h.reported i (List.mem_range.mp hi)
  have hfail : fail ≠ pass := by decide
  simp only [Function.comp_apply, judge, hok, hres]
  cases ok with
  | true => rw [if_pos (by rfl), if_pos rfl]
  | false => rw [if_neg (by simpa using hfail), if_neg (by simp)]; rfl

/-- What the host answers. -/
def Verdict (names : List String) (fails : List Failure) (s : State) : Prop :=
  (∃ got, fails = [.noMagic got]) ∨ (∃ status, fails = [.notDone status]) ∨
    Published names.length s ∧
      ∃ hb, (hb = [] ∨ ∃ v, hb = [.heartbeat v]) ∧ fails = failing names s.2 ++ hb

theorem Verdict.stable {names : List String} (fails : List Failure) :
    Stable (protocol names.length) .host (Verdict names fails) := by
  rintro s s' (hr : Publishes names.length s s') (h | h | ⟨h, hb, hhb, hfails⟩)
  · exact .inl h
  · exact .inr (.inl h)
  · refine .inr (.inr ⟨Published.stable s s' hr h, hb, hhb, ?_⟩)
    rw [(hr.2 h.1).1]
    exact hfails

/-- What is collected from a published mailbox. -/
theorem collect_spec {names : List String} (hn : names.length < 2 ^ 29) :
    Triple (protocol names.length) .host (Published names.length) (collect names)
      (Verdict names) := by
  have hpub := Published.stable (n := names.length)
  have hcount : ∀ w : Word, Stable (protocol names.length) .host
      fun s => Published names.length s ∧ w.toNat = names.length :=
    fun w s s' hr h => ⟨hpub s s' hr h.1, h.2⟩
  refine (read_spec (K := fun w s => Published names.length s ∧ w.toNat = names.length) hpub hcount
    fun s hs => ⟨hs, ?_⟩).bind fun w => ?_
  · have hword : s.1 (mailbox + 0x08) = BitVec.ofNat 32 names.length := hs.2.count
    rw [hword, BitVec.toNat_ofNat]
    omega
  refine (Triple.assume fun hw : w.toNat = names.length => ?_).pre fun s hs => ⟨hs.2, hs.1⟩
  rw [hw, Nat.min_self, if_neg (not_not.mpr rfl)]
  -- what is made of the results is the same as long as the verdicts are
  have hjudged : ∀ fails : List Failure, Stable (protocol names.length) .host
      fun s => Published names.length s ∧ fails = failing names s.2 := by
    intro fails s s' hr h
    refine ⟨hpub s s' hr h.1, ?_⟩
    rw [((hr : Publishes names.length s s').2 h.1.1).1]
    exact h.2
  refine (readWords_spec (k := 8) hpub (fun s hs => hs) le_rfl le_rfl).bind fun results => ?_
  refine Triple.pre (P := fun s => Published names.length s ∧
    results.zipIdx.filterMap (judge names) = failing names s.2) ?_ fun s hs => ⟨hs.1, ?_⟩
  · refine (read_spec (hjudged _) (fun _ => hjudged _) fun s hs => hs).bind fun hb1 => ?_
    refine (read_spec (hjudged _) (fun _ => hjudged _) fun s hs => hs).bind fun hb2 => ?_
    refine Triple.ret (hjudged _) fun s hs => .inr (.inr ⟨hs.1, ?_⟩)
    rw [List.nil_append, hs.2]
    split_ifs
    · exact ⟨[.heartbeat hb1], .inr ⟨hb1, rfl⟩, rfl⟩
    · exact ⟨[], .inl rfl, (List.append_nil _).symm⟩
  · rw [hs.2]
    exact judge_results hs.1.2

theorem host_spec {names : List String} (hn : names.length < 2 ^ 29) :
    Triple (protocol names.length) .host (Seen names.length (0, 0)) (runMailboxSuite names)
      (Verdict names) := by
  refine poll_spec.bind fun ⟨m, status⟩ => ?_
  change Triple _ _ _ (if m ≠ magic then .ret [Failure.noMagic m] else if status ≠ statusDone
    then .ret [Failure.notDone status] else collect names) _
  split_ifs with hm hstatus
  · exact .ret (Seen.stable _) fun s _ => .inl ⟨m, rfl⟩
  · exact .ret (Seen.stable _) fun s _ => .inr (.inl ⟨status, rfl⟩)
  · refine (collect_spec hn).pre fun s hs => ?_
    have hd := hs.2 ⟨not_not.mp hm, not_not.mp hstatus⟩
    exact ⟨hd, hs.1 hd⟩

end Host

/-! ### The verdict -/

/-- **The host is right.** If the status word does not say `done` when the firmware starts, then
whatever happens between the accesses: a host that has not given up knows the verdict of every test,
and reports the tests that have failed, each one once and in order, and beside them at most the
heartbeat. -/
theorem verdict_exact {names : List String} (hn : names.length < 2 ^ 29) {m₀ : Word → Word}
    (hstale : m₀ (mailbox + 0x04) ≠ statusDone)
    {c : Config Side SuiteOp.Answer (List Failure) State}
    (hc : (rig names.length).Reach ⟨(m₀, fun _ => none), sides names⟩ c) {fails : List Failure}
    (hret : c.threads .host = .ret fails) :
    (∃ got, fails = [.noMagic got]) ∨ (∃ status, fails = [.notDone status]) ∨
      (∀ i < names.length, ∃ ok, c.shared.2 i = some ok) ∧
        ∃ hb, (hb = [] ∨ ∃ v, hb = [.heartbeat v]) ∧ fails = failing names c.shared.2 ++ hb := by
  have hnot : ¬ Done (m₀, fun _ => none) := hstale
  have hspec : ∀ t, Triple (protocol names.length) t
      (match t with
        | .target => fun s => ¬ Done s
        | .host => Seen names.length (0, 0)) (sides names t)
      (match t with
        | .target => fun _ _ => False
        | .host => Verdict names) := by
    intro t
    cases t with
    | target => exact start_spec hn _
    | host => exact host_spec hn
  have hstart : ∀ t : Side, (match t with
      | .target => fun s => ¬ Done s
      | .host => Seen names.length (0, 0)) ((m₀, fun _ => none) : State) := by
    intro t
    cases t with
    | target => exact hnot
    | host => exact ⟨fun hd => absurd hd hnot, fun h => absurd h.1 (by decide)⟩
  have hv : Verdict names fails c.shared :=
    Safe.result ((protocol names.length).sound hspec hstart hc .host) hret
  obtain h | h | ⟨hpub, hb, hhb, hfails⟩ := hv
  · exact .inl h
  · exact .inr (.inl h)
  · refine .inr (.inr ⟨fun i hi => ?_, hb, hhb, hfails⟩)
    obtain ⟨ok, hok, -⟩ := hpub.2.reported i hi
    exact ⟨ok, hok⟩

/-! ### Two runs -/

/-- Answers for a suite whose tests end as `oks` says, before any deadline. -/
def answer (oks : ℕ → Bool) (_ : Side) :
    (e : SuiteOp) → State → Option (e.Answer × State)
  | .write addr v, s => some ((), Function.update s.1 addr v, s.2)
  | .test i, s => some (oks i, s.1, Function.update s.2 i (some (oks i)))
  | .read addr, s => some (s.1 addr, s)
  | .beforeDeadline, s => some (true, s)

theorem reach_of_play {n : ℕ} {o : ℕ → Bool}
    {c c' : Config Side SuiteOp.Answer (List Failure) State} (ts : List Side)
    (h : Machine.play (answer o) (fun (_ : Empty) _ => none) c (ts.map .thread) = some c') :
    (rig n).Reach c c' := by
  have hacc : ∀ (t : Side) (e : SuiteOp) (s : State)
      (p : e.Answer × State), answer o t e s = some p →
      (rig n).access t e s p.1 p.2 := by
    intro t e s p h
    cases e with
    | write addr v => obtain rfl := Option.some.inj h; exact ⟨rfl, rfl⟩
    | test i => obtain rfl := Option.some.inj h; exact ⟨fun _ _ => rfl, rfl⟩
    | read addr => obtain rfl := Option.some.inj h; exact ⟨⟨rfl, rfl⟩, rfl⟩
    | beforeDeadline => obtain rfl := Option.some.inj h; exact ⟨rfl, rfl⟩
  exact Machine.Reach.of_play hacc (fun (i : Empty) _ _ _ => i.elim) _ h

/-- A test that fails is reported. -/
theorem verdict_exact_fails : ∃ c : Config Side SuiteOp.Answer (List Failure) State,
    (rig 1).Reach ⟨(fun _ => 0, fun _ => none), sides ["timer sleep_us bounds"]⟩ c ∧
    c.threads .host = .ret [.result "timer sleep_us bounds" fail] ∧
      ((∃ got, [Failure.result "timer sleep_us bounds" fail] = [.noMagic got]) ∨
      (∃ status, [Failure.result "timer sleep_us bounds" fail] = [.notDone status]) ∨
      (∀ i < ["timer sleep_us bounds"].length, ∃ ok, c.shared.2 i = some ok) ∧
        ∃ hb, (hb = [] ∨ ∃ v, hb = [.heartbeat v]) ∧
          [Failure.result "timer sleep_us bounds" fail]
            = failing ["timer sleep_us bounds"] c.shared.2 ++ hb) := by
  have h := reach_of_play (n := 1) (o := fun _ => false)
    (c := ⟨(fun _ => 0, fun _ => none), sides ["timer sleep_us bounds"]⟩)
    (List.replicate 7 Side.target ++ List.replicate 7 Side.host ++ List.replicate 3 Side.target ++
      [.host]) rfl
  exact ⟨_, h, rfl, @verdict_exact ["timer sleep_us bounds"] (by decide) _ (by decide) _ h _ rfl⟩

/-- The RAM of an earlier run, in which the test has passed. -/
def stale : Word → Word := fun addr =>
  if addr = word 0 then magic else if addr = word 1 then statusDone else if addr = word 2 then 1
  else if addr = word 8 then pass else 0

/-- **A stale status.** The host is faster than the first stores of the firmware, and has the
results of the earlier run before the test fails: it reports nothing. -/
theorem verdict_stale : ∃ c : Config Side SuiteOp.Answer (List Failure) State,
    (rig 1).Reach ⟨(stale, fun _ => none), sides ["timer sleep_us bounds"]⟩ c ∧
      c.threads .host = .ret [] ∧ c.shared.2 0 = some false := by
  have h := reach_of_play (n := 1) (o := fun _ => false)
    (c := ⟨(stale, fun _ => none), sides ["timer sleep_us bounds"]⟩)
    (List.replicate 7 Side.host ++ List.replicate 10 Side.target ++ [.host]) rfl
  exact ⟨_, h, rfl, rfl⟩

end Hil
