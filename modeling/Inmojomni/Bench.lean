import Inmojomni.Effect.Raising
import Inmojomni.Mmio.Ram

/-!
# The benchmark on the RP2350

The host flashes a benchmark image, waits until the device is back in BOOTSEL and reads the
result page from the flash mailbox (`tools/bench_rp2350.mojo`). The image stages that page in
SRAM and commits it before it reboots (`bench/bench_rp2350.mojo`).

The two sides meet in `World`. The host sees the device through `Op`: whether the drive is
mounted, the copy of the UF2 onto it, and the words of the mailbox. The device goes on by itself
(`Device.Step`): it leaves BOOTSEL with what was copied, and some time later the image is back
there, with its page committed or not.
-/

namespace Bench

open Effect Mmio

/-! ### The image -/

def count : ℕ := 9

def runs : ℕ := 3

/-- "BENC" -/
def magic : Word := 0x42454E43#32

def mb : Word := 0x20030000#32

def fibN : Word := 0x20023000#32

/-- One page of flash. -/
abbrev Page := Fin 64 → Word

/-- A benchmark image and how its run goes: the language id it stamps, what workload `idx`
measures in a run (cycles and checksum), what SRAM holds at the start, and whether the image gets
as far as `flash_commit_reboot`. -/
structure Image where
  lang : Word
  timed : ℕ → ℕ → Word × Word
  sram : Ram
  commits : Bool

def report (run idx : ℕ) (r : Word × Word) : List (Word × Word) :=
  let base := mb + 0x14#32 + BitVec.ofNat 32 ((run * count + idx) * 8)
  [(base, r.1), (base + 4#32, r.2)]

namespace Image

variable (im : Image)

/-- The stores of `start`, up to the commit. What the workloads store elsewhere in SRAM is left
out. -/
def start : List (Word × Word) :=
  [(mb + 0x00#32, magic), (mb + 0x04#32, 1#32), (mb + 0x08#32, BitVec.ofNat 32 count),
    (mb + 0x0C#32, BitVec.ofNat 32 runs), (mb + 0x10#32, im.lang), (fibN, 24#32)] ++
  ((List.range 3).flatMap fun run => (List.range 9).flatMap fun idx =>
    report run idx (im.timed run idx)) ++
  [(mb + 0x04#32, 2#32)]

/-- The 256 bytes at `mb` that `flash_commit_reboot` programs. -/
def page : Page := fun k => (im.sram.storeAll im.start).read32 (mb + BitVec.ofNat 32 (4 * k))

/-- What is in the mailbox once the image is back in BOOTSEL. -/
def leave (p : Page) : Page := if im.commits then im.page else p

/-- The measurements in the order of the page. -/
def results : List Word :=
  (List.range runs).flatMap fun run => (List.range count).flatMap fun idx =>
    [(im.timed run idx).1, (im.timed run idx).2]

end Image

/-! ### The device -/

/-- Where the device is: in BOOTSEL with nothing to run or with a UF2 just copied, or off USB. -/
inductive Phase
  | bootsel
  | loaded (im : Image)
  | running (im : Image)

/-- The device, with the number of UF2s copied so far and the one of them whose image committed
the page in the mailbox. -/
structure Device where
  phase : Phase
  mailbox : Page
  author : Option ℕ
  flashes : ℕ

namespace Device

def InBootsel (d : Device) : Prop := ∀ im, d.phase ≠ .running im

/-- A UF2 has been copied to the drive. -/
def flash (d : Device) (im : Image) : Device :=
  { d with phase := .loaded im, flashes := d.flashes + 1 }

/-- The image ends: it commits its page, or it does not. -/
def back (d : Device) (im : Image) : Device where
  phase := .bootsel
  mailbox := im.leave d.mailbox
  author := if im.commits then some d.flashes else d.author
  flashes := d.flashes

/-- What the device does by itself. -/
inductive Step : Device → Device → Prop
  | boot {d : Device} {im : Image} (h : d.phase = .loaded im) :
      Step d { d with phase := .running im }
  | back {d : Device} {im : Image} (h : d.phase = .running im) : Step d (d.back im)

end Device

/-! ### The host -/

/-- What `run_bench` does outside itself. -/
inductive Op
  | convert (elf : Image)
  | mounted
  | cp
  | sync
  | sleep (seconds : ℕ)
  | picobootRead (words : ℕ)

abbrev Op.Answer : Op → Type
  | .mounted => Bool
  | .picobootRead _ => List Word
  | _ => Unit

/-- What the host can see of the drive. Back in BOOTSEL, it may take its time to appear. -/
def Device.Shows (d : Device) (drive : Bool) : Prop :=
  match d.phase with
  | .bootsel => True
  | .loaded _ => drive = true
  | .running _ => drive = false

/-- The host's `/tmp/bench2.uf2`, and the device. -/
structure World where
  uf2 : Option Image
  device : Device

/-- How an operation is answered. A command may fail, and a `cp` that fails may still have copied
everything. -/
def access : (e : Op) → World → Except String e.Answer → World → Prop
  | .convert elf, w, .ok _, w' => w' = { w with uf2 := some elf }
  | .mounted, w, .ok (b : Bool), w' => w' = w ∧ w.device.Shows b
  | .cp, w, r, w' => (w' = w ∧ ∃ e, r = .error e) ∨
      w.device.InBootsel ∧ ∃ im, w.uf2 = some im ∧ w' = { w with device := w.device.flash im }
  | .sleep _, w, r, w' => w' = w ∧ r = .ok ()
  | .picobootRead words, w, .ok (ws : List Word), w' => w' = w ∧ w.device.InBootsel ∧
      ws = (List.ofFn w.device.mailbox).take words
  | _, w, _, w' => w' = w

/-- The device goes on. -/
def World.Step (w w' : World) : Prop := w'.uf2 = w.uf2 ∧ w.device.Step w'.device

/-- Run one command; raise when it fails. -/
def sh (e : Op) : Script Op.Answer String e.Answer := attempt e

def mounted : Script Op.Answer String Bool := sh .mounted

def sleep (seconds : ℕ) : Script Op.Answer String Unit := sh (.sleep seconds)

/-- A call of `run_bench`. -/
structure Call where
  elf : Image
  langId : Word
  lang : String

/-- `while not _mounted()`, with 30 rounds of waiting to go at first. -/
def awaitDrive : ℕ → Script Op.Answer String Unit
  | 0 => do
    if ← mounted then pure ()
    else throw "no BOOTSEL drive at /media/hundo/RP2350 after 60 s"
  | left + 1 => do
    if ← mounted then pure ()
    else
      sleep 2
      awaitDrive left

/-- `for _ in range(30)`: has the device dropped off USB? -/
def awaitGone : ℕ → Script Op.Answer String Bool
  | 0 => pure false
  | left + 1 => do
    sleep 2
    if ← mounted then awaitGone left
    else pure true

/-- `for _ in range(60)` -/
def awaitReturn : ℕ → Script Op.Answer String Unit
  | 0 => pure ()
  | left + 1 => do
    if ← mounted then pure ()
    else
      sleep 2
      awaitReturn left

/-- magic, state, count, runs, lang -/
def hdr : ℕ := 5

/-- What `run_bench` makes of the words it has read. -/
def checkPage (c : Call) (flat : List Word) : Except String (List Word) :=
  if flat.getD 0 0#32 ≠ magic then .error (c.lang ++ ": bad mailbox magic")
  else if flat.getD 1 0#32 ≠ 2#32 then .error (c.lang ++ ": firmware did not reach done state")
  else if flat.getD 2 0#32 ≠ BitVec.ofNat 32 count ∨ flat.getD 3 0#32 ≠ BitVec.ofNat 32 runs then
    .error (c.lang ++ ": count/runs mismatch — stale firmware?")
  else if flat.getD 4 0#32 ≠ c.langId then
    .error (c.lang ++ ": mailbox written by lang " ++ toString (flat.getD 4 0#32).toNat)
  else .ok ((List.range (runs * count * 2)).map fun i => flat.getD (hdr + i) 0#32)

/-- `run_bench` once the UF2 is copied: the device drops off USB to run the suite, then reboots to
BOOTSEL. -/
def collect (c : Call) : Script Op.Answer String (List Word) := do
  sh .sync
  if ← awaitGone 30 then
    awaitReturn 60
    if ← mounted then
      sleep 1
      let flat ← sh (.picobootRead (hdr + runs * count * 2))
      ExceptT.mk (.ret (checkPage c flat))
    else throw (c.lang ++ ": device never returned to BOOTSEL (firmware hung?)")
  else throw (c.lang ++ ": device never left BOOTSEL (UF2 not consumed?)")

/-- UF2-flash, wait for the self-reboot, read the flash mailbox. -/
def runBench (c : Call) : Script Op.Answer String (List Word) := do
  sh (.convert c.elf)
  awaitDrive 30
  sh .cp
  collect c

end Bench
