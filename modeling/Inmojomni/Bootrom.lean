import Inmojomni.Bench
import Inmojomni.Listing
import Inmojomni.Rv32

/-!
# Calls into the boot ROM

Two routines of `crt0_rv32.S` end a program on the RP2350: `flash_commit_reboot` leaves a page of
results in flash and reboots into BOOTSEL, `rom_reboot_bootsel` only reboots. All they do is look up
functions of the boot ROM and call them. Such a function follows the calling convention, and that is
all it does (`Rom`): it may change every other register and the stack below.

What the ROM functions do to the flash is `Rom.Documented`. A flash command has an outcome only
where the flash is connected and no longer mapped into memory, so that the order of the calls
matters; and programming clears bits but sets none, so that what is programmed has to be erased
before.

`flashCommitReboot_commits` is the whole run, from any registers: the calls in their order, and what
they lead to, which is that the sector holds the buffer. The run does not end. `Bench` takes for
granted that an image commits its page; `flash_page` is why.
-/

open Listing Rv32
open Mmio (Ram)

namespace Bootrom

/-! ### The listings -/

inductive Label
  | park | bail
deriving DecidableEq

/-- A `jalr` links to `ra`, without an offset. -/
inductive Instr
  | mv (rd rs : Reg)
  | li (rd : Reg) (imm : Word)
  | addi (rd rs : Reg) (imm : Word)
  | ori (rd rs : Reg) (imm : Word)
  | lhu (rd : Reg) (off : Word) (base : Reg)
  | lw (rd : Reg) (off : Word) (base : Reg)
  | sw (rs : Reg) (off : Word) (base : Reg)
  | beqz (rs : Reg) (target : Label)
  | jalr (rs : Reg)
  | j (target : Label)
  | ret

open Reg

/-- `_romlk`: `a0` gets the ROM function with this code. -/
def romlk (code : Word) : List Instr :=
  [.li a0 code, .li a1 1#32, .li t0 0x7dfa#32, .lhu t0 0#32 t0, .jalr t0]

/-- 'I','F' -/
def connectInternalFlash : Word := 0x4649

/-- 'E','X' -/
def flashExitXip : Word := 0x5845

/-- 'R','E' -/
def flashRangeErase : Word := 0x4552

/-- 'R','P' -/
def flashRangeProgram : Word := 0x5052

/-- 'F','C' -/
def flashFlushCache : Word := 0x4346

/-- 'R','B' -/
def reboot : Word := 0x4252

/-- The arguments are kept where calls save them. -/
def keepArguments : List Instr := [.mv s0 a0, .mv s1 a1, .mv s2 a2, .mv s3 a3]

def callFound : List Instr := [.jalr a0]

def callErase : List Instr :=
  [.mv t1 a0, .mv a0 s0, .li a1 4096#32, .li a2 65536#32, .li a3 0xD8#32, .jalr t1]

def callProgram : List Instr := [.mv t1 a0, .mv a0 s0, .mv a1 s1, .mv a2 s2, .jalr t1]

def callCommitReboot : List Instr :=
  [.mv t1 a0, .ori a0 s3 0x2#32, .li a1 100#32, .li a2 0#32, .li a3 0#32, .jalr t1]

/-- The six calls of `flash_commit_reboot`. -/
def commitCalls : List Instr :=
  (romlk connectInternalFlash ++ callFound) ++ (romlk flashExitXip ++ callFound) ++
  (romlk flashRangeErase ++ callErase) ++ (romlk flashRangeProgram ++ callProgram) ++
  (romlk flashFlushCache ++ callFound) ++ (romlk reboot ++ callCommitReboot)

def flashCommit : List Instr := keepArguments ++ commitCalls

/-- `flash_commit_reboot(offset, buffer, count, flags)` -/
def flashCommitReboot : List (Line Label Instr) :=
  flashCommit.map .instr ++ [.label .park, .instr (.j .park)]

/-- `rom_reboot_bootsel` before it looks the function up. -/
def saveArguments : List Instr :=
  [.addi sp sp (-16#32), .sw ra 12#32 sp, .sw s0 8#32 sp, .sw s1 4#32 sp, .mv s0 a0, .mv s1 a1]

def callReboot : List Instr :=
  [.mv t0 a0, .ori a0 s1 0x2#32, .mv a1 s0, .li a2 0#32, .li a3 0#32, .jalr t0]

def restore : List Instr :=
  [.lw ra 12#32 sp, .lw s0 8#32 sp, .lw s1 4#32 sp, .addi sp sp 16#32]

/-- `rom_reboot_bootsel(delay_ms, flags)` -/
def romRebootBootsel : List (Line Label Instr) :=
  (saveArguments ++ romlk reboot).map .instr ++ .instr (.beqz a0 .bail) :: callReboot.map .instr ++
    .label .bail :: restore.map .instr ++ [.instr .ret]

/-! ### The machine -/

/-- The flash, by offset, and what the ROM has been told to do with it and with the chip: the flags
and the delay of a reboot. -/
structure Chip where
  flash : Ram
  connected : Bool
  mapped : Bool
  rebooting : Option (Word × Word)

/-- The state of the core, with the functions called so far. -/
structure Cpu where
  regs : Regs
  mem : Ram
  chip : Chip
  calls : List Word

def Cpu.get (c : Cpu) (r : Reg) : Word := if r = .zero then 0#32 else c.regs r

def Cpu.set (c : Cpu) (r : Reg) (v : Word) : Cpu := { c with regs := Function.update c.regs r v }

/-- The boot ROM: its contents, where its functions are, and what they do. They use at most `stack`
bytes of the stack. -/
structure Rom where
  halfword : Word → BitVec 16
  table : Word → Word
  stack : ℕ
  run : Word → Cpu → Cpu
  saves : ∀ f c r, r.calleeSaved = true → (run f c).regs r = c.regs r
  keeps : ∀ f c x, stack ≤ (c.regs .sp - 1#32 - x).toNat → (run f c).mem x = c.mem x

/-- The entry of the lookup, which is in the table itself. -/
def Rom.lookup (rom : Rom) : Word := (rom.halfword 0x7dfa#32).setWidth 32

/-- A call is what the function does. -/
def Rom.call (rom : Rom) (f : Word) (c : Cpu) : Cpu := { rom.run f c with calls := c.calls ++ [f] }

/-- The ROM is the first 32 KiB of the address space. -/
def Rom.load16 (rom : Rom) (m : Ram) (addr : Word) : BitVec 16 :=
  if addr < 0x8000#32 then rom.halfword addr else m (addr + 1#32) ++ m addr

/-- What a function finds and leaves in `ra` does not matter. -/
def exec (rom : Rom) : Instr → Cpu → Option (Cpu × Next Label)
  | .mv rd rs, c => some (c.set rd (c.get rs), .on)
  | .li rd imm, c => some (c.set rd imm, .on)
  | .addi rd rs imm, c => some (c.set rd (c.get rs + imm), .on)
  | .ori rd rs imm, c => some (c.set rd (c.get rs ||| imm), .on)
  | .lhu rd off base, c =>
    some (c.set rd ((rom.load16 c.mem (c.get base + off)).setWidth 32), .on)
  | .lw rd off base, c => some (c.set rd (c.mem.read32 (c.get base + off)), .on)
  | .sw rs off base, c =>
    some ({ c with mem := c.mem.write32 (c.get base + off) (c.get rs) }, .on)
  | .beqz rs l, c => some (c, if c.get rs = 0#32 then .goto l else .on)
  | .jalr rs, c => some (rom.call (c.get rs) c, .on)
  | .j l, c => some (c, .goto l)
  | .ret, _ => none

/-! ### The functions -/

def erase (off : Word) (n : ℕ) (flash : Ram) : Ram := fun x =>
  if (x - off).toNat < n then 0xFF#8 else flash x

/-- Bits can only be cleared. -/
def program (off src : Word) (n : ℕ) (m flash : Ram) : Ram := fun x =>
  if (x - off).toNat < n then flash x &&& m (src + (x - off)) else flash x

/-- With this flag a reboot does not return. -/
def noReturnOnSuccess : Word := 0x100

/-- The functions that the two routines call, as the ROM documents them. -/
structure Rom.Documented (rom : Rom) : Prop where
  lookup : ∀ c, c.regs .a1 = 1#32 →
    (rom.run rom.lookup c).regs .a0 = rom.table (c.regs .a0) ∧
    (rom.run rom.lookup c).chip = c.chip
  connect : ∀ c, (rom.run (rom.table connectInternalFlash) c).chip =
    { c.chip with connected := true }
  exitXip : ∀ c, c.chip.connected = true →
    (rom.run (rom.table flashExitXip) c).chip = { c.chip with mapped := false }
  erase : ∀ c, c.chip.connected = true → c.chip.mapped = false →
    (c.regs .a0).toNat % 4096 = 0 → (c.regs .a1).toNat % 4096 = 0 →
    (rom.run (rom.table flashRangeErase) c).chip =
      { c.chip with flash := erase (c.regs .a0) (c.regs .a1).toNat c.chip.flash }
  program : ∀ c, c.chip.connected = true → c.chip.mapped = false →
    (c.regs .a0).toNat % 256 = 0 → (c.regs .a2).toNat % 256 = 0 →
    (rom.run (rom.table flashRangeProgram) c).chip =
      { c.chip with
        flash := program (c.regs .a0) (c.regs .a1) (c.regs .a2).toNat c.mem c.chip.flash }
  flush : ∀ c, (rom.run (rom.table flashFlushCache) c).chip = c.chip
  reboot : ∀ c, c.regs .a0 &&& noReturnOnSuccess = 0#32 →
    (rom.run (rom.table reboot) c).chip =
      { c.chip with rebooting := some (c.regs .a0, c.regs .a1) }

/-! ### Calls -/

namespace Rom

variable (rom : Rom)

/-- From `c` to `d` code has kept to the calling convention; `chip` is what it has done, by
`calls`. -/
structure At (c : Cpu) (chip : Chip) (args : Reg → Word) (calls : List Word) (d : Cpu) : Prop where
  regs : ∀ r, r.calleeSaved = true → d.regs r = args r
  sp : args .sp = c.regs .sp
  mem : ∀ x, rom.stack ≤ (c.regs .sp - 1#32 - x).toNat → d.mem x = c.mem x
  chip : d.chip = chip
  calls : d.calls = calls

variable {rom} {c d : Cpu} {chip : Chip} {args : Reg → Word} {calls : List Word}

/-- A register that a call need not save. -/
theorem At.set (h : rom.At c chip args calls d) {r : Reg} (hr : r.calleeSaved = false) (v : Word) :
    rom.At c chip args calls (d.set r v) where
  regs r' hr' := by
    have hne : r' ≠ r := fun heq => by
      rw [heq, hr] at hr'
      cases hr'
    exact (Function.update_of_ne hne _ _).trans (h.regs r' hr')
  sp := h.sp
  mem := h.mem
  chip := h.chip
  calls := h.calls

/-- A call of any function of the ROM. -/
theorem At.call (h : rom.At c chip args calls d) (f : Word) :
    rom.At c (rom.run f d).chip args (calls ++ [f]) (rom.call f d) where
  regs r hr := (rom.saves f d r hr).trans (h.regs r hr)
  sp := h.sp
  mem x hx := by
    have hsp : d.regs .sp = c.regs .sp := (h.regs .sp rfl).trans h.sp
    refine (rom.keeps f d x ?_).trans (h.mem x hx)
    rw [hsp]
    exact hx
  chip := rfl
  calls := congrArg (· ++ [f]) h.calls

theorem At.of_chip (h : rom.At c chip args calls d) {chip' : Chip} (hchip : chip = chip') :
    rom.At c chip' args calls d :=
  hchip ▸ h

/-- Looking a function up. -/
theorem At.romlk (hrom : rom.Documented) (h : rom.At c chip args calls d) (code : Word) :
    ∃ e, straight (exec rom) (romlk code) d = some e ∧
      rom.At c chip args (calls ++ [rom.lookup]) e ∧ e.regs .a0 = rom.table code := by
  have hset := (((h.set (r := .a0) rfl code).set (r := .a1) rfl 1#32).set (r := .t0) rfl
    0x7dfa#32).set (r := .t0) rfl rom.lookup
  obtain ⟨ha0, hchip⟩ := hrom.lookup ((((d.set .a0 code).set .a1 1#32).set .t0 0x7dfa#32).set .t0
    rom.lookup) rfl
  exact ⟨_, rfl, (hset.call _).of_chip (hchip.trans hset.chip), ha0⟩

/-- Functions that are looked up and called, one after the other. -/
def made (rom : Rom) (codes : List Word) : List Word :=
  codes.flatMap fun code => [rom.lookup, rom.table code]

/-- Code that keeps to the convention and takes the chip from one state to another, by calls of the
functions with these codes. -/
def Leads (rom : Rom) (c : Cpu) (args : Reg → Word) (is : List Instr) (codes : List Word)
    (chip chip' : Chip) : Prop :=
  ∀ calls d, rom.At c chip args calls d →
    ∃ e, straight (exec rom) is d = some e ∧ rom.At c chip' args (calls ++ rom.made codes) e

variable {is js : List Instr} {codes codes' : List Word} {chip' chip'' : Chip}

theorem Leads.append (h : rom.Leads c args is codes chip chip')
    (h' : rom.Leads c args js codes' chip' chip'') :
    rom.Leads c args (is ++ js) (codes ++ codes') chip chip'' := by
  intro calls d hd
  obtain ⟨e, he, hate⟩ := h calls d hd
  obtain ⟨f, hf, hatf⟩ := h' _ e hate
  refine ⟨f, by rw [straight_append, he]; exact hf, ?_⟩
  rw [made, List.flatMap_append, ← List.append_assoc]
  exact hatf

/-- A function is looked up, and then called with arguments set by `is`. -/
theorem leads_call (hrom : rom.Documented) {code : Word}
    (hcall : ∀ calls d, rom.At c chip args calls d → d.regs .a0 = rom.table code →
      ∃ e, rom.At c chip args calls e ∧
        straight (exec rom) is d = some (rom.call (rom.table code) e) ∧
        (rom.run (rom.table code) e).chip = chip') :
    rom.Leads c args (Bootrom.romlk code ++ is) [code] chip chip' := by
  intro calls d hd
  obtain ⟨e, he, hate, ha0⟩ := hd.romlk hrom code
  obtain ⟨f, hatf, hf, hchip⟩ := hcall _ e hate ha0
  refine ⟨_, by rw [straight_append, he]; exact hf, ?_⟩
  have hmade : calls ++ rom.made [code] = calls ++ [rom.lookup] ++ [rom.table code] := by
    rw [made, List.flatMap_singleton, List.append_assoc, List.singleton_append]
  rw [hmade]
  exact (hatf.call _).of_chip hchip

theorem callFound_eq {f : Word} (ha0 : d.regs .a0 = f) :
    straight (exec rom) callFound d = some (rom.call f d) := by
  rw [← ha0]
  rfl

theorem connect_leads (hrom : rom.Documented) :
    rom.Leads c args (Bootrom.romlk connectInternalFlash ++ callFound) [connectInternalFlash] chip
      { chip with connected := true } := by
  refine leads_call hrom fun _ d hd ha0 => ⟨d, hd, callFound_eq ha0, ?_⟩
  rw [hrom.connect, hd.chip]

theorem exitXip_leads (hrom : rom.Documented) (hconnected : chip.connected = true) :
    rom.Leads c args (Bootrom.romlk flashExitXip ++ callFound) [flashExitXip] chip
      { chip with mapped := false } := by
  refine leads_call hrom fun _ d hd ha0 => ⟨d, hd, callFound_eq ha0, ?_⟩
  rw [hrom.exitXip d (by rw [hd.chip, hconnected]), hd.chip]

theorem flush_leads (hrom : rom.Documented) :
    rom.Leads c args (Bootrom.romlk flashFlushCache ++ callFound) [flashFlushCache] chip chip :=
  leads_call hrom fun _ d hd ha0 => ⟨d, hd, callFound_eq ha0, (hrom.flush d).trans hd.chip⟩

theorem erase_leads (hrom : rom.Documented) (hconnected : chip.connected = true)
    (hmapped : chip.mapped = false) (hoff : (args .s0).toNat % 4096 = 0) :
    rom.Leads c args (Bootrom.romlk flashRangeErase ++ callErase) [flashRangeErase] chip
      { chip with flash := erase (args .s0) 4096 chip.flash } := by
  refine leads_call hrom fun _ d hd ha0 => ?_
  have hset := ((((hd.set (r := .t1) rfl (d.regs .a0)).set (r := .a0) rfl (d.regs .s0)).set
    (r := .a1) rfl 4096#32).set (r := .a2) rfl 65536#32).set (r := .a3) rfl 0xD8#32
  refine ⟨_, hset, ?_, ?_⟩
  · rw [← ha0]
    rfl
  · have hs0 : d.regs .s0 = args .s0 := hd.regs .s0 rfl
    refine (hrom.erase _ (hset.chip ▸ hconnected) (hset.chip ▸ hmapped) ?_ ?_).trans ?_
    · change (d.regs .s0).toNat % 4096 = 0
      rw [hs0]
      exact hoff
    · change (4096#32).toNat % 4096 = 0
      decide
    · change { d.chip with flash := Bootrom.erase (d.regs .s0) 4096 d.chip.flash } = _
      rw [hs0, hd.chip]

theorem program_leads (hrom : rom.Documented) (hconnected : chip.connected = true)
    (hmapped : chip.mapped = false) (hoff : (args .s0).toNat % 256 = 0)
    (hcount : (args .s2).toNat % 256 = 0) (hsrc : ∀ i : Word, i.toNat < (args .s2).toNat →
      rom.stack ≤ (c.regs .sp - 1#32 - (args .s1 + i)).toNat) :
    rom.Leads c args (Bootrom.romlk flashRangeProgram ++ callProgram) [flashRangeProgram] chip
      { chip with
        flash := program (args .s0) (args .s1) (args .s2).toNat c.mem chip.flash } := by
  refine leads_call hrom fun _ d hd ha0 => ?_
  have hset := (((hd.set (r := .t1) rfl (d.regs .a0)).set (r := .a0) rfl (d.regs .s0)).set
    (r := .a1) rfl (d.regs .s1)).set (r := .a2) rfl (d.regs .s2)
  refine ⟨_, hset, ?_, ?_⟩
  · rw [← ha0]
    rfl
  · have hs0 : d.regs .s0 = args .s0 := hd.regs .s0 rfl
    have hs1 : d.regs .s1 = args .s1 := hd.regs .s1 rfl
    have hs2 : d.regs .s2 = args .s2 := hd.regs .s2 rfl
    refine (hrom.program _ (hset.chip ▸ hconnected) (hset.chip ▸ hmapped) ?_ ?_).trans ?_
    · change (d.regs .s0).toNat % 256 = 0
      rw [hs0]
      exact hoff
    · change (d.regs .s2).toNat % 256 = 0
      rw [hs2]
      exact hcount
    · change Chip.mk (Bootrom.program (d.regs .s0) (d.regs .s1) (d.regs .s2).toNat d.mem
        d.chip.flash) d.chip.connected d.chip.mapped d.chip.rebooting = _
      have hbuffer : Bootrom.program (args .s0) (args .s1) (args .s2).toNat d.mem chip.flash =
          Bootrom.program (args .s0) (args .s1) (args .s2).toNat c.mem chip.flash := by
        funext x
        by_cases hx : (x - args .s0).toNat < (args .s2).toNat
        · rw [Bootrom.program, Bootrom.program, if_pos hx, if_pos hx, hd.mem _ (hsrc _ hx)]
        · rw [Bootrom.program, Bootrom.program, if_neg hx, if_neg hx]
      rw [hs0, hs1, hs2, hd.chip, hbuffer]

theorem flags_returns {flags : Word} (h : flags &&& noReturnOnSuccess = 0#32) :
    (flags ||| 0x2#32) &&& noReturnOnSuccess = 0#32 := by
  rw [BitVec.and_or_distrib_right, h]
  decide

theorem reboot_leads (hrom : rom.Documented) (hflags : args .s3 &&& noReturnOnSuccess = 0#32) :
    rom.Leads c args (Bootrom.romlk reboot ++ callCommitReboot) [reboot] chip
      { chip with rebooting := some (args .s3 ||| 0x2#32, 100#32) } := by
  refine leads_call hrom fun _ d hd ha0 => ?_
  have hset := ((((hd.set (r := .t1) rfl (d.regs .a0)).set (r := .a0) rfl
    (d.regs .s3 ||| 0x2#32)).set (r := .a1) rfl 100#32).set (r := .a2) rfl 0#32).set (r := .a3) rfl
    0#32
  refine ⟨_, hset, ?_, ?_⟩
  · rw [← ha0]
    rfl
  · have hs3 : d.regs .s3 = args .s3 := hd.regs .s3 rfl
    refine (hrom.reboot _ (flags_returns (hs3 ▸ hflags))).trans ?_
    change { d.chip with rebooting := some (d.regs .s3 ||| 0x2#32, 100#32) } = _
    rw [hs3, hd.chip]

end Rom

/-! ### `flash_commit_reboot` -/

section Commit

variable {rom : Rom} {c : Cpu}

/-- The saved registers once they hold the arguments. -/
def arguments (c : Cpu) : Regs
  | .s0 => c.regs .a0
  | .s1 => c.regs .a1
  | .s2 => c.regs .a2
  | .s3 => c.regs .a3
  | r => c.regs r

theorem keepArguments_at (rom : Rom) (c : Cpu) :
    ∃ d, straight (exec rom) keepArguments c = some d ∧
      rom.At c c.chip (arguments c) c.calls d := by
  refine ⟨_, rfl, fun r hr => ?_, rfl, fun _ _ => rfl, rfl, rfl⟩
  cases r <;> rfl

/-- A page in the sector that has been erased. -/
theorem program_erase {off src x : Word} {n : ℕ} {m flash : Ram} (hn : n ≤ 4096) :
    program off src n m (erase off 4096 flash) x =
      if (x - off).toNat < n then m (src + (x - off))
      else if (x - off).toNat < 4096 then 0xFF#8 else flash x := by
  by_cases hx : (x - off).toNat < n
  · rw [program, if_pos hx, if_pos hx, erase, if_pos (hx.trans_le hn)]
    exact BitVec.allOnes_and
  · rw [program, if_neg hx, if_neg hx, erase]

theorem target_park : target flashCommitReboot .park = flashCommit.length := rfl

/-- The loop at the end. -/
theorem park_loops (rom : Rom) (e : Cpu) :
    Relation.TransGen (fun c c' => Listing.step (exec rom) flashCommitReboot c = some c')
      (target flashCommitReboot .park, e) (target flashCommitReboot .park, e) := by
  have hlabel : Listing.step (exec rom) flashCommitReboot (target flashCommitReboot .park, e) =
      some (target flashCommitReboot .park + 1, e) := rfl
  exact .tail (.single hlabel) rfl

/-- The functions that are called, in their order. -/
def commitCodes : List Word :=
  [connectInternalFlash, flashExitXip, flashRangeErase, flashRangeProgram, flashFlushCache, reboot]

/-- The run up to the loop. -/
theorem exists_committed (hrom : rom.Documented) (hoff : (c.regs .a0).toNat % 4096 = 0)
    (hcount : (c.regs .a2).toNat % 256 = 0) (hn : (c.regs .a2).toNat ≤ 4096)
    (hsrc : ∀ i : Word, i.toNat < (c.regs .a2).toNat →
      rom.stack ≤ (c.regs .sp - 1#32 - (c.regs .a1 + i)).toNat)
    (hflags : c.regs .a3 &&& noReturnOnSuccess = 0#32) :
    ∃ e, Steps (exec rom) flashCommitReboot (0, c) (target flashCommitReboot .park, e) ∧
      e.calls = c.calls ++ rom.made commitCodes ∧
      (∀ x, e.chip.flash x =
        if (x - c.regs .a0).toNat < (c.regs .a2).toNat then c.mem (c.regs .a1 + (x - c.regs .a0))
        else if (x - c.regs .a0).toNat < 4096 then 0xFF#8 else c.chip.flash x) ∧
      e.chip.rebooting = some (c.regs .a3 ||| 0x2#32, 100#32) := by
  obtain ⟨d, hd, hat⟩ := keepArguments_at rom c
  have hoff' : (c.regs .a0).toNat % 256 = 0 := by omega
  have hconnect : rom.Leads c (arguments c) _ _ c.chip _ := Rom.connect_leads hrom
  have hleads := ((((hconnect.append (Rom.exitXip_leads hrom rfl)).append
    (Rom.erase_leads hrom rfl rfl hoff)).append
    (Rom.program_leads hrom rfl rfl hoff' hcount hsrc)).append (Rom.flush_leads hrom)).append
    (Rom.reboot_leads hrom hflags)
  obtain ⟨e, he, hate⟩ := hleads c.calls d hat
  have hrun : straight (exec rom) flashCommit c = some e := by
    rw [flashCommit, straight_append, hd]
    exact he
  refine ⟨e, ?_, hate.calls, fun x => ?_, ?_⟩
  · rw [target_park, ← Nat.zero_add flashCommit.length]
    exact steps_straight (List.prefix_append _ _) hrun
  · rw [hate.chip]
    exact program_erase hn
  · rw [hate.chip]
    rfl

/-- **Committing a page.** Whatever the registers are, and whatever the ROM functions leave in those
that they need not save, the run makes its calls in their order and gets to the loop at the end:
with the buffer in the sector, the rest of the sector erased, the other sectors as they were, and a
reboot into BOOTSEL under way. It never ends. -/
theorem flashCommitReboot_commits (rom : Rom) (hrom : rom.Documented) (c : Cpu)
    (hoff : (c.regs .a0).toNat % 4096 = 0) (hcount : (c.regs .a2).toNat % 256 = 0)
    (hn : (c.regs .a2).toNat ≤ 4096) (hsrc : ∀ i : Word, i.toNat < (c.regs .a2).toNat →
      rom.stack ≤ (c.regs .sp - 1#32 - (c.regs .a1 + i)).toNat)
    (hflags : c.regs .a3 &&& noReturnOnSuccess = 0#32) :
    (∃ e, Steps (exec rom) flashCommitReboot (0, c) (target flashCommitReboot .park, e) ∧
      e.calls = c.calls ++ rom.made commitCodes ∧
      (∀ x, e.chip.flash x =
        if (x - c.regs .a0).toNat < (c.regs .a2).toNat then c.mem (c.regs .a1 + (x - c.regs .a0))
        else if (x - c.regs .a0).toNat < 4096 then 0xFF#8 else c.chip.flash x) ∧
      e.chip.rebooting = some (c.regs .a3 ||| 0x2#32, 100#32)) ∧
    ∀ e, ¬ Stops (exec rom) flashCommitReboot (0, c) e := by
  obtain ⟨e, hpark, hdone⟩ := exists_committed hrom hoff hcount hn hsrc hflags
  exact ⟨⟨e, hpark, hdone⟩, fun _ => hpark.not_stops (park_loops rom e)⟩

/-- A ROM whose functions change `t0` and do what they are called for. -/
def plain : Rom where
  halfword _ := 0x7FFF#16
  table code := code
  stack := 64
  run f c :=
    { regs := Function.update c.regs .t0 0#32
      mem := c.mem
      calls := []
      chip :=
        if f = connectInternalFlash then { c.chip with connected := true }
        else if f = flashExitXip then { c.chip with mapped := false }
        else if f = flashRangeErase then
          { c.chip with flash := erase (c.regs .a0) (c.regs .a1).toNat c.chip.flash }
        else if f = flashRangeProgram then
          { c.chip with
            flash := program (c.regs .a0) (c.regs .a1) (c.regs .a2).toNat c.mem c.chip.flash }
        else if f = reboot then { c.chip with rebooting := some (c.regs .a0, c.regs .a1) }
        else c.chip }
  saves f c r hr := Function.update_of_ne (fun h => by rw [h] at hr; cases hr) _ _
  keeps _ _ _ _ := rfl

theorem plain_documented : plain.Documented where
  lookup _ _ := ⟨rfl, rfl⟩
  connect _ := rfl
  exitXip _ _ := rfl
  erase _ _ _ _ _ := rfl
  program _ _ _ _ _ := rfl
  flush _ := rfl
  reboot _ _ := rfl

/-- A call in a program that has filled the memory with one byte. -/
def caller : Cpu where
  regs
    | .a0 => 0x3FF000#32
    | .a1 => 0x20030000#32
    | .a2 => 256#32
    | .sp => 0x20081000#32
    | _ => 0#32
  mem := fun _ => 0x5A#8
  chip := ⟨fun _ => 0#8, false, true, none⟩
  calls := []

theorem flashCommitReboot_commits_plain : (∃ e,
    Steps (exec plain) flashCommitReboot (0, caller) (target flashCommitReboot .park, e) ∧
      e.calls = plain.made commitCodes ∧
      (∀ x, e.chip.flash x = if (x - 0x3FF000#32).toNat < 256 then 0x5A#8
        else if (x - 0x3FF000#32).toNat < 4096 then 0xFF#8 else 0#8) ∧
      e.chip.rebooting = some (2#32, 100#32)) ∧
    ∀ e, ¬ Stops (exec plain) flashCommitReboot (0, caller) e := by
  refine flashCommitReboot_commits plain plain_documented caller (by decide) (by decide)
    (by decide) (fun i hi => ?_) (by decide)
  change i.toNat < 256 at hi
  change 64 ≤ (0x20081000#32 - 1#32 - (0x20030000#32 + i)).toNat
  bv_omega

theorem read32_shift {m m' : Ram} {a b : Word}
    (h : ∀ i : Word, i.toNat < 4 → m (a + i) = m' (b + i)) : m.read32 a = m'.read32 b := by
  have h0 := h 0#32 (by decide)
  rw [BitVec.add_zero, BitVec.add_zero] at h0
  rw [Ram.read32, Ram.read32, h 3 (by decide), h 2 (by decide), h 1 (by decide), h0]

/-- What a benchmark image stages in SRAM is what the host reads from the mailbox in flash. -/
theorem flash_page (hrom : rom.Documented) (im : Bench.Image)
    (hmem : c.mem = im.sram.storeAll im.start) (hoff : c.regs .a0 = 0x3FF000#32)
    (hbuf : c.regs .a1 = Bench.mb) (hcount : c.regs .a2 = 256#32) (hstack : ∀ i : Word,
      i.toNat < 256 → rom.stack ≤ (c.regs .sp - 1#32 - (Bench.mb + i)).toNat)
    (hflags : c.regs .a3 &&& noReturnOnSuccess = 0#32) :
    ∃ e, Steps (exec rom) flashCommitReboot (0, c) (target flashCommitReboot .park, e) ∧
      ∀ k : Fin 64, e.chip.flash.read32 (0x3FF000#32 + BitVec.ofNat 32 (4 * k)) = im.page k := by
  obtain ⟨e, hpark, -, hflash, -⟩ := exists_committed (c := c) hrom (by rw [hoff]; decide)
    (by rw [hcount]; decide) (by rw [hcount]; decide) (by rw [hcount, hbuf]; exact hstack) hflags
  refine ⟨e, hpark, fun k => ?_⟩
  rw [Bench.Image.page, ← hmem]
  refine read32_shift fun i hi => ?_
  have hx : 0x3FF000#32 + BitVec.ofNat 32 (4 * k) + i - 0x3FF000#32 =
      BitVec.ofNat 32 (4 * k) + i := by bv_omega
  have hlt : (BitVec.ofNat 32 (4 * k) + i).toNat < (256#32).toNat := by
    change _ < 256
    have hk := k.isLt
    rw [BitVec.toNat_add, BitVec.toNat_ofNat]
    omega
  rw [hflash, hoff, hx, hcount, if_pos hlt, hbuf, BitVec.add_assoc]

end Commit

/-! ### `rom_reboot_bootsel` -/

section Reboot

variable {rom : Rom} {c : Cpu}

/-- The state after the prologue: the frame is below the stack of the caller. -/
def entered (c : Cpu) : Cpu where
  regs
    | .sp => c.regs .sp + -16#32
    | .s0 => c.regs .a0
    | .s1 => c.regs .a1
    | r => c.regs r
  mem := ((c.mem.write32 (c.regs .sp + -16#32 + 12#32) (c.regs .ra)).write32
    (c.regs .sp + -16#32 + 8#32) (c.regs .s0)).write32 (c.regs .sp + -16#32 + 4#32) (c.regs .s1)
  chip := c.chip
  calls := c.calls

theorem saveArguments_eq (rom : Rom) (c : Cpu) :
    straight (exec rom) saveArguments c = some (entered c) := by
  refine congrArg some ?_
  refine congrArg (Cpu.mk · _ _ _) (funext fun r => ?_)
  cases r <;> rfl

/-- What the frame holds. -/
theorem entered_frame (c : Cpu) :
    (entered c).mem.read32 ((entered c).regs .sp + 12#32) = c.regs .ra ∧
    (entered c).mem.read32 ((entered c).regs .sp + 8#32) = c.regs .s0 ∧
    (entered c).mem.read32 ((entered c).regs .sp + 4#32) = c.regs .s1 := by
  have h48 : Ram.Apart (c.regs .sp + -16#32 + 4#32) (c.regs .sp + -16#32 + 8#32) :=
    .add_left (by decide) _
  have h412 : Ram.Apart (c.regs .sp + -16#32 + 4#32) (c.regs .sp + -16#32 + 12#32) :=
    .add_left (by decide) _
  have h812 : Ram.Apart (c.regs .sp + -16#32 + 8#32) (c.regs .sp + -16#32 + 12#32) :=
    .add_left (by decide) _
  refine ⟨?_, ?_, ?_⟩
  · exact (Ram.read32_write32_of_apart h412).trans
      ((Ram.read32_write32_of_apart h812).trans Ram.read32_write32)
  · exact (Ram.read32_write32_of_apart h48).trans Ram.read32_write32
  · exact Ram.read32_write32

theorem entered_saved {r : Reg} (hr : r.calleeSaved = true) (hsp : r ≠ .sp) (hs0 : r ≠ .s0)
    (hs1 : r ≠ .s1) : (entered c).regs r = c.regs r := by
  cases r <;> first | contradiction | rfl

/-- The caller's memory is not in the frame. -/
theorem entered_mem {x : Word} (hx : 16 ≤ (c.regs .sp - 1#32 - x).toNat) :
    (entered c).mem x = c.mem x := by
  refine (Ram.write32_of_le ?_).trans ((Ram.write32_of_le ?_).trans (Ram.write32_of_le ?_))
  all_goals bv_omega

/-- The routine looks the function up, and calls it if there is one. -/
theorem lookUp_at (hrom : rom.Documented) : ∃ d, straight (exec rom) (saveArguments ++ romlk reboot)
    c = some d ∧ rom.At (entered c) c.chip (entered c).regs (c.calls ++ [rom.lookup]) d ∧
      d.regs .a0 = rom.table reboot := by
  have hat : rom.At (entered c) c.chip (entered c).regs c.calls (entered c) :=
    ⟨fun _ _ => rfl, rfl, fun _ _ => rfl, rfl, rfl⟩
  obtain ⟨d, hd, hatd, ha0⟩ := hat.romlk hrom reboot
  exact ⟨d, by rw [straight_append, saveArguments_eq]; exact hd, hatd, ha0⟩

theorem callReboot_at (hrom : rom.Documented) (hflags : c.regs .a1 &&& noReturnOnSuccess = 0#32)
    {calls : List Word} {d : Cpu} (hd : rom.At (entered c) c.chip (entered c).regs calls d)
    (ha0 : d.regs .a0 = rom.table reboot) :
    ∃ e, straight (exec rom) callReboot d = some e ∧ rom.At (entered c)
      { c.chip with rebooting := some (c.regs .a1 ||| 0x2#32, c.regs .a0) } (entered c).regs
      (calls ++ [rom.table reboot]) e := by
  have hs0 : d.regs .s0 = c.regs .a0 := hd.regs .s0 rfl
  have hs1 : d.regs .s1 = c.regs .a1 := hd.regs .s1 rfl
  have hset := ((((hd.set (r := .t0) rfl (d.regs .a0)).set (r := .a0) rfl
    (d.regs .s1 ||| 0x2#32)).set (r := .a1) rfl (d.regs .s0)).set (r := .a2) rfl 0#32).set
    (r := .a3) rfl 0#32
  rw [← ha0]
  refine ⟨_, rfl, (hset.call (d.regs .a0)).of_chip ?_⟩
  rw [ha0]
  refine (hrom.reboot _ (Rom.flags_returns (hs1 ▸ hflags))).trans ?_
  change { d.chip with rebooting := some (d.regs .s1 ||| 0x2#32, d.regs .s0) } = _
  rw [hs0, hs1, hd.chip]

/-- The epilogue. -/
theorem restore_eq {chip : Chip} {calls : List Word} {e : Cpu} (hstack : rom.stack ≤ 2 ^ 32 - 16)
    (h : rom.At (entered c) chip (entered c).regs calls e) :
    ∃ f, straight (exec rom) restore e = some f ∧
      f.chip = chip ∧ f.calls = calls ∧ f.mem = e.mem ∧ f.regs .ra = c.regs .ra ∧
      ∀ r, r.calleeSaved = true → f.regs r = c.regs r := by
  obtain ⟨hra, hs0, hs1⟩ := entered_frame c
  have hsp : e.regs .sp = (entered c).regs .sp := h.regs .sp rfl
  have hframe : ∀ off : Word, 4 ≤ off.toNat → off.toNat ≤ 12 →
      e.mem.read32 (e.regs .sp + off) = (entered c).mem.read32 ((entered c).regs .sp + off) := by
    intro off hlo hhi
    rw [hsp]
    refine Ram.read32_congr fun x hx => h.mem x ?_
    have hnot : 2 ^ 32 - 16 ≤ ((entered c).regs .sp - 1#32 - x).toNat := by bv_omega
    exact hstack.trans hnot
  refine ⟨_, rfl, h.chip, h.calls, rfl, ?_, fun r hr => ?_⟩
  · exact (hframe 12#32 (by decide) (by decide)).trans hra
  · by_cases hs : r = .sp
    · subst hs
      change e.regs .sp + 16#32 = c.regs .sp
      rw [hsp]
      change c.regs .sp + -16#32 + 16#32 = c.regs .sp
      bv_omega
    · by_cases hr1 : r = .s1
      · subst hr1
        exact (hframe 4#32 (by decide) (by decide)).trans hs1
      · by_cases hr0 : r = .s0
        · subst hr0
          exact (hframe 8#32 (by decide) (by decide)).trans hs0
        · have hra' : r ≠ .ra := fun heq => by rw [heq] at hr; cases hr
          refine Eq.trans ?_ ((h.regs r hr).trans (entered_saved hr hs hr0 hr1))
          exact (Function.update_of_ne hs _ _).trans ((Function.update_of_ne hr1 _ _).trans
            ((Function.update_of_ne hr0 _ _).trans (Function.update_of_ne hra' _ _)))

theorem target_bail : target romRebootBootsel .bail = 18 := rfl

/-- **Rebooting.** If the ROM has the function it is called once, and the reboot is under way, with
the flags and the delay asked for; if not, nothing has happened. Either way the routine returns as a
function does. -/
theorem romRebootBootsel_returns (rom : Rom) (hrom : rom.Documented)
    (hstack : rom.stack ≤ 2 ^ 32 - 16) (c : Cpu)
    (hflags : c.regs .a1 &&& noReturnOnSuccess = 0#32) : ∃ pc e,
    Stops (exec rom) romRebootBootsel (0, c) (pc, e) ∧ romRebootBootsel[pc]? = some (.instr .ret) ∧
    e.calls = c.calls ++ [rom.lookup] ++
      (if rom.table reboot = 0#32 then [] else [rom.table reboot]) ∧
    e.chip = (if rom.table reboot = 0#32 then c.chip
      else { c.chip with rebooting := some (c.regs .a1 ||| 0x2#32, c.regs .a0) }) ∧
    e.regs .ra = c.regs .ra ∧ (∀ r, r.calleeSaved = true → e.regs r = c.regs r) ∧
    ∀ x, 16 + rom.stack ≤ (c.regs .sp - 1#32 - x).toNat → e.mem x = c.mem x := by
  obtain ⟨d, hd, hatd, ha0⟩ := lookUp_at (c := c) hrom
  have hfirst : (saveArguments ++ romlk reboot).map .instr <+: romRebootBootsel.drop 0 := ⟨_, rfl⟩
  have hlook : Steps (exec rom) romRebootBootsel (0, c) (11, d) := steps_straight hfirst hd
  have hbeqz : exec rom (.beqz .a0 .bail) d =
      some (d, if rom.table reboot = 0#32 then .goto .bail else .on) := by
    rw [← ha0]
    rfl
  -- both ways lead to the label
  have hbail : ∃ e, Steps (exec rom) romRebootBootsel (11, d) (18, e) ∧
      rom.At (entered c) (if rom.table reboot = 0#32 then c.chip
        else { c.chip with rebooting := some (c.regs .a1 ||| 0x2#32, c.regs .a0) })
        (entered c).regs (c.calls ++ [rom.lookup] ++
          (if rom.table reboot = 0#32 then [] else [rom.table reboot])) e := by
    by_cases hzero : rom.table reboot = 0#32
    · rw [if_pos hzero] at hbeqz
      rw [if_pos hzero, if_pos hzero, List.append_nil]
      exact ⟨d, steps_goto rfl hbeqz target_bail, hatd⟩
    · rw [if_neg hzero] at hbeqz
      rw [if_neg hzero, if_neg hzero]
      obtain ⟨e, he, hate⟩ := callReboot_at hrom hflags hatd ha0
      have hcode : callReboot.map .instr <+: romRebootBootsel.drop 12 := ⟨_, rfl⟩
      exact ⟨e, (steps_on rfl hbeqz).trans (steps_straight hcode he), hate⟩
  obtain ⟨e, he, hate⟩ := hbail
  obtain ⟨f, hf, hchip, hcalls, hmem, hra, hregs⟩ := restore_eq hstack hate
  have hlast : restore.map .instr <+: romRebootBootsel.drop 19 := ⟨_, rfl⟩
  have hend : Steps (exec rom) romRebootBootsel (18, e) (23, f) :=
    (steps_label rfl).trans (steps_straight hlast hf)
  refine ⟨23, f, ⟨(hlook.trans he).trans hend, rfl⟩, rfl, hcalls, hchip, hra, hregs,
    fun x hx => ?_⟩
  have hbelow : rom.stack ≤ ((entered c).regs .sp - 1#32 - x).toNat := by
    change rom.stack ≤ (c.regs .sp + -16#32 - 1#32 - x).toNat
    bv_omega
  have hframe : 16 ≤ (c.regs .sp - 1#32 - x).toNat := by omega
  rw [hmem, hate.mem x hbelow, entered_mem hframe]

theorem romRebootBootsel_returns_plain : ∃ pc e,
    Stops (exec plain) romRebootBootsel (0, caller) (pc, e) ∧
    romRebootBootsel[pc]? = some (.instr .ret) ∧
    e.calls = plain.lookup :: (if plain.table reboot = 0#32 then [] else [plain.table reboot]) ∧
    e.chip = (if plain.table reboot = 0#32 then caller.chip
      else { caller.chip with rebooting := some (0x20030000#32 ||| 0x2#32, 0x3FF000#32) }) ∧
    e.regs .ra = 0#32 ∧ (∀ r, r.calleeSaved = true → e.regs r = caller.regs r) ∧
    ∀ x, 16 + plain.stack ≤ (0x20081000#32 - 1#32 - x).toNat → e.mem x = 0x5A#8 :=
  romRebootBootsel_returns plain plain_documented (by decide) caller (by decide)

end Reboot

end Bootrom
