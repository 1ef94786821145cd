import Inmojomni.Effect.Raising
import Inmojomni.Pio.Latency

/-!
# Running a latency firmware

`run_target` of the host flashes a measuring firmware, waits for its mailbox to say that it is done,
checks what the mailbox reports, reads the samples of the last run and makes a `Result` of them. The
percentiles come from a histogram of `hist` bins, the last of which takes all larger counts.

What the target's memory holds is read by `probe-rs` while the target goes on, so memory may change
between any two operations (`access`).
-/

namespace IrqLatency

open Effect

/-- The mailbox. -/
def mb : Word := 0x20030000#32

def magic : Word := 0x4952514C#32

def samplesAddr : Word := 0x20010000#32

/-- The samples in a run. -/
def n : ℕ := 10000

def runs : ℕ := 3

/-- Histogram bins over the raw count. -/
def hist : ℕ := 4096

structure Variant where
  name : String
  langId : Word
  elf : String

structure Result where
  khz : Word
  /-- Count, run 0 iteration 0. -/
  first : Word
  /-- Counts, over all runs. -/
  mn : Word
  mx : Word
  /-- Count, runs 1.. -/
  mxWarm : Word
  /-- Over all runs. -/
  sumAll : BitVec 64
  /-- Counts, last run. -/
  p50 : Word
  p99 : Word
  p999 : Word
  isrAddr : Word

def Result.init : Result := ⟨0, 0, 0, 0, 0, 0, 0, 0, 0, 0⟩

/-! ### The mailbox -/

/-- The words of the mailbox. -/
abbrev Head := Vector Word 0x20

/-- A word of the mailbox at a computed index. -/
def Head.at (head : Head) (k : ℕ) : Word := head[k]?.getD 0#32

variable [Pio.ShiftModel]

/-- The measurement program, assembled here. -/
def want : Pio.Asm := Pio.Latency.referenceProgram.getD Pio.Asm.init

/-- One round of the loop over the per-run statistics. -/
def addRun (head : Head) (r : Result) (run : ℕ) : Result :=
  let mn := head.at (0x0C + run * 3)
  let mx := head.at (0x0D + run * 3)
  let sm := head.at (0x0E + run * 3)
  { r with
    mn := if mn < r.mn then mn else r.mn
    mx := if mx > r.mx then mx else r.mx
    mxWarm := if run > 0 ∧ mx > r.mxWarm then mx else r.mxWarm
    sumAll := r.sumAll + sm.setWidth 64 }

/-- Division of unsigned words. Dividing by zero is left undefined, and ends in `divZero`. -/
def udiv (divZero : Except String (BitVec 64)) (a b : BitVec 64) : Except String (BitVec 64) :=
  if b = 0 then divZero else .ok (a / b)

/-- The spread gate on the mean. -/
def checkSpread (divZero : Except String (BitVec 64)) (v : Variant) (head : Head) :
    Except String Unit := do
  let sums := (List.range runs).map fun run => head.at (0x0E + run * 3)
  let lo := sums.tail.foldl (fun lo sm => if sm < lo then sm else lo) (sums.getD 0 0#32)
  let hi := sums.tail.foldl (fun hi sm => if sm > hi then sm else hi) (sums.getD 0 0#32)
  let percent ← udiv divZero ((hi - lo).setWidth 64 * 100#64) (lo.setWidth 64)
  if percent ≥ 2#64 then
    throw (v.name ++ ": run spread of the mean exceeds 2% (" ++ toString lo.toNat ++ ".."
      ++ toString hi.toNat ++ " summed counts)")
  else pure ()

/-- The first word that differs from the reference program. -/
def differing (head : Head) : Option ℕ :=
  (List.range want.len).find? fun i => head.at (0x19 + i) ≠ (want.code[i]?.getD 0).setWidth 32

/-- What the mailbox says, or what is wrong with it. -/
def readHead (divZero : Except String (BitVec 64)) (v : Variant) (head : Head) :
    Except String Result :=
  let khz := head.at 5
  if head.at 1 = 3#32 then throw (v.name ++ ": firmware error code " ++ toString (head.at 8).toNat)
  else if head.at 2 ≠ BitVec.ofNat 32 n ∨ head.at 3 ≠ BitVec.ofNat 32 runs then
    throw (v.name ++ ": N/runs mismatch -- stale firmware?")
  else if head.at 4 ≠ v.langId then throw (v.name ++ ": language id " ++ toString (head.at 4).toNat)
  else if khz < 124000#32 ∨ khz > 126000#32 then
    throw (v.name ++ ": clk_sys measured " ++ toString khz.toNat ++ " kHz, expected 125,000 +-1%")
  else if head.at 7 ≠ BitVec.ofNat 32 (n * runs) then
    throw (v.name ++ ": " ++ toString (head.at 7).toNat ++ " interrupts taken, expected "
      ++ toString (n * runs))
  else if (head.at 0x18).toNat ≠ want.len then
    throw (v.name ++ ": PIO program length " ++ toString (head.at 0x18).toNat)
  else
    match differing head with
    | some i =>
      throw (v.name ++ ": PIO program word " ++ toString i ++ " differs from the reference")
    | none => do
      let r := (List.range runs).foldl (addRun head)
        { Result.init with khz := khz, first := head.at 6, mn := 0xFFFFFFFF, mx := 0 }
      checkSpread divZero v head
      return r

/-! ### The samples -/

/-- The bin of a sample. -/
def bin (s : Word) : Fin hist :=
  if h : s < 4096#32 then ⟨s.toNat, BitVec.lt_def.mp h⟩ else ⟨hist - 1, Nat.lt_succ_self _⟩

/-- What the loop over the samples keeps. -/
structure Tally where
  smn : Word
  smx : Word
  ssum : Word
  hist : Vector Word hist

def Tally.init : Tally := ⟨0xFFFFFFFF, 0, 0, Vector.replicate IrqLatency.hist 0⟩

def Tally.add (t : Tally) (s : Word) : Tally where
  smn := if s < t.smn then s else t.smn
  smx := if s > t.smx then s else t.smx
  ssum := t.ssum + s
  hist := t.hist.set (bin s) (t.hist[bin s] + 1) (bin s).isLt

/-- What the loop over the bins keeps. -/
structure Cursor where
  acc : ℕ
  got50 : Bool
  got99 : Bool
  r : Result

/-- The part of a round before the last threshold. -/
def Cursor.pass (h : Vector Word hist) (c : Cursor) (b : Fin hist) : Cursor :=
  let acc := c.acc + h[b].toNat
  let now50 := !c.got50 && decide (acc * 100 ≥ n * 50)
  let now99 := !c.got99 && decide (acc * 100 ≥ n * 99)
  { acc := acc
    got50 := c.got50 || now50
    got99 := c.got99 || now99
    r := { c.r with
      p50 := if now50 then BitVec.ofNat 32 b else c.r.p50
      p99 := if now99 then BitVec.ofNat 32 b else c.r.p99 } }

/-- The loop over the bins, which ends at the last threshold. -/
def scan (h : Vector Word hist) : List (Fin hist) → Cursor → Result
  | [], c => c.r
  | b :: bs, c =>
    let c := c.pass h b
    if c.acc * 1000 ≥ n * 999 then { c.r with p999 := BitVec.ofNat 32 b } else scan h bs c

/-- Raw samples of the last run: recompute, then percentiles. -/
def reduce (v : Variant) (head : Head) (r : Result) (samples : Vector Word n) :
    Except String Result :=
  let t := samples.toList.foldl Tally.add Tally.init
  let last := runs - 1
  if t.smn ≠ head.at (0x0C + last * 3) ∨ t.smx ≠ head.at (0x0D + last * 3) ∨
      t.ssum ≠ head.at (0x0E + last * 3) then
    throw (v.name
      ++ ": host-recomputed min/max/sum of the last run differ from the firmware's")
  else pure (scan t.hist (List.finRange hist) ⟨0, false, false, r⟩)

/-! ### The run -/

/-- What `run_target` does outside itself. -/
inductive Op
  | flash (elf : String)
  | sleep (tenths : ℕ)
  | readWords (addr : Word) (count : ℕ)

abbrev Op.Answer : Op → Type
  | .readWords _ count => Vector Word count
  | _ => Unit

/-- The target's memory, word by word, at the operation. A read may fail, and raises when it does
not yield the number of words it should. -/
def access : (e : Op) → (Word → Word) → Except String e.Answer → (Word → Word) → Prop
  | .readWords addr count, _, .ok (ws : Vector Word count), m' =>
    ∀ k (hk : k < count), ws[k] = m' (addr + BitVec.ofNat 32 (4 * k))
  | _, _, _, _ => True

/-- The firmware has reported success or an error. -/
def Finished (head : Head) : Prop := head.at 0 = magic ∧ (head.at 1 = 2#32 ∨ head.at 1 = 3#32)

instance (head : Head) : Decidable (Finished head) := inferInstanceAs (Decidable (_ ∧ _))

/-- The polling loop, with `left` rounds after this one. -/
def awaitDone (v : Variant) : ℕ → Script Op.Answer String Head
  | 0 => do
    let head : Head ← attempt (Op.readWords mb 0x20)
    if Finished head then pure head
    else
      attempt (Op.sleep 5)
      throw (v.name ++ ": firmware never finished (status " ++ toString (head.at 1).toNat ++ ")")
  | left + 1 => do
    let head : Head ← attempt (Op.readWords mb 0x20)
    if Finished head then pure head
    else
      attempt (Op.sleep 5)
      awaitDone v left

def runTarget (divZero : Except String (BitVec 64)) (v : Variant) : Script Op.Answer String Result :=
  do
    attempt (Op.flash v.elf)
    attempt (Op.sleep 20)
    let head ← awaitDone v 19
    let r ← ExceptT.mk (.ret (readHead divZero v head))
    let samples ← attempt (Op.readWords samplesAddr n)
    ExceptT.mk (.ret (reduce v head r samples))

end IrqLatency
