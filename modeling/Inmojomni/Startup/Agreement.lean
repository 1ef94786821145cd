import Inmojomni.Startup.Rp2040
import Inmojomni.Startup.Rp2350

/-!
# Both startups

From the same memory and with the same symbols both startups come to the call of `mojo_main` and
leave the same memory there, in which the globals are what the program says.
-/

namespace Startup

open Listing Mmio

/-- A run of `reset_handler` ends in one state, at the call of `mojo_main`, with memory `m'`. -/
def Rp2040.Leaves (y : Symbols) (c : Rp2040.Cpu) (m' : Ram) : Prop :=
  ∃ e : ℕ × Rp2040.Cpu,
    (∀ e', Stops exec (code y) (target (code y) .resetHandler, c) e' ↔ e' = e) ∧
    (code y)[e.1]? = some (.instr (.bl .mojoMain)) ∧ e.2.mem = m'

/-- The same for `_reset`. -/
def Rp2350.Leaves (y : Rp2350.Symbols) (c : Rp2350.Core) (m' : Ram) : Prop :=
  ∃ e : ℕ × Rp2350.Core,
    (∀ e', Stops exec (code y) (target (code y) .reset, c) e' ↔ e' = e) ∧
    (code y)[e.1]? = some (.instr (.call .mojoMain)) ∧ e.2.mem = m'

/-- **Startup.** For every memory and every placement of the sections both startups get to the call
of `mojo_main`, with `.data` copied, `.bss` cleared and every other byte as before. -/
theorem startup_initialises (ram : Set Word) (y : Rp2350.Symbols) (h : Placed ram y.toSymbols)
    (m : Ram) : ∃ m', Initialised y.toSymbols m m' ∧
      (∀ c : Rp2040.Cpu, c.mem = m → Rp2040.Leaves y.toSymbols c m') ∧
      ∀ c : Rp2350.Core, c.mem = m → Rp2350.Leaves y c m' := by
  refine ⟨initialise y.toSymbols m, h.initialised m, ?_, ?_⟩
  · rintro c rfl
    obtain ⟨c', hstops, hmem⟩ := Rp2040.exists_stops h c
    exact ⟨(20, c'), fun _ => hstops.iff, rfl, hmem⟩
  · rintro c rfl
    obtain ⟨c', hstops, hmem⟩ := Rp2350.exists_stops h c
    exact ⟨(25, c'), fun _ => hstops.iff, rfl, hmem⟩

/-- Two words of `.data` and three of `.bss` at the start of RAM. -/
def small : Rp2350.Symbols where
  sidata := 0x10001000#32
  sdata := 0x20000000#32
  edata := 0x20000008#32
  sbss := 0x20000008#32
  ebss := 0x20000014#32
  globalPointer := 0x20000800#32
  stackTop := 0x20082000#32
  trapDispatch := 0x10000100#32

theorem placed_small : Placed Rp2040.ram small.toSymbols where
  data_le := by decide
  bss_le := by decide
  sidata_aligned := by decide
  sdata_aligned := by decide
  edata_aligned := by decide
  sbss_aligned := by decide
  ebss_aligned := by decide
  data_ram := by
    rintro x ⟨hlo, hhi⟩
    change x < 0x20000008#32 at hhi
    refine ⟨hlo, ?_⟩
    bv_omega
  bss_ram := by
    rintro x ⟨hlo, hhi⟩
    change 0x20000008#32 ≤ x at hlo
    change x < 0x20000014#32 at hhi
    constructor
    · bv_omega
    · bv_omega
  image := by
    rintro k hk ⟨hle, -⟩
    have hk8 : k < 8 := hk
    change 0x20000000#32 ≤ 0x10001000#32 + BitVec.ofNat 32 k at hle
    bv_omega
  disjoint := by
    refine Set.disjoint_left.mpr ?_
    rintro x ⟨-, hdata⟩ ⟨hbss, -⟩
    change x < 0x20000008#32 at hdata
    change 0x20000008#32 ≤ x at hbss
    bv_omega

theorem startup_initialises_small : ∃ m', Initialised small.toSymbols (fun x => x.setWidth 8) m' ∧
    (∀ c : Rp2040.Cpu, (c.mem = fun x => x.setWidth 8) → Rp2040.Leaves small.toSymbols c m') ∧
    ∀ c : Rp2350.Core, (c.mem = fun x => x.setWidth 8) → Rp2350.Leaves small c m' :=
  startup_initialises Rp2040.ram small placed_small _

end Startup
