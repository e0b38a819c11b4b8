import QemuStm32.Gic.Registers
import QemuStm32.Nvic.Systick

/-!
# The nested vectored interrupt controller

`hw/armv7m_nvic.c`: the interrupt controller of `hw/arm_gic.c` with one CPU,
SysTick, and the system control registers that `gic_dist_readl` and
`gic_dist_writel` pass on to `nvic_readl` and `nvic_writel`.
-/

namespace QemuStm32.Nvic

open Gic

/-- `nvic_state`, with the two CPU registers it serves and the virtual clock. -/
structure NvicState where
  gic : State armv7m
  systick : Systick
  cpuid : BitVec 32
  vecbase : BitVec 32
  now : Nat

/-- `ARMV7M_EXCP_*`. -/
def excpNmi : Nat := 2
def excpMem : Nat := 4
def excpBus : Nat := 5
def excpUsage : Nat := 6
def excpSvc : Nat := 11
def excpDebug : Nat := 12
def excpPendsv : Nat := 14
def excpSystick : Nat := 15

section
variable (s : NvicState)

def NvicState.withGic (g : State armv7m) : NvicState := { s with gic := g }

/-- The external vector numbers start at 16, those of the interrupt controller
at 32. -/
def internalIrq (irq : Nat) : Nat := if irq ≥ 16 then irq + 16 else irq

def armv7mNvicSetPending (irq : Nat) : Except Fault NvicState := do
  let g ← gicSetPendingPrivate s.gic 0 (internalIrq irq)
  .ok (s.withGic g)

def armv7mNvicAcknowledgeIrq : Except Fault (Nat × NvicState) :=
  let (irq, g) := gicAcknowledgeIrq s.gic 0
  if irq = 1023 then .error (.hwError "Interrupt but no vector\n" [])
  else .ok (if irq ≥ 32 then irq - 16 else irq, s.withGic g)

def armv7mNvicCompleteIrq (irq : Nat) : Except Fault NvicState := do
  let g ← gicCompleteIrq s.gic 0 (internalIrq irq)
  .ok (s.withGic g)

/-- `qemu_run_timers` reaching `systick_timer_tick`. -/
def nvicRunTimers (scale : Int) (s : NvicState) : Except Fault NvicState :=
  let (systick, pend) := runTimers scale s.now s.systick
  let s := { s with systick := systick }
  if pend then armv7mNvicSetPending s excpSystick else .ok s

/-! ## Reads -/

/-- `val |= bit` for each pair whose test holds. -/
def flags (tests : List (Bool × Nat)) : BitVec 32 :=
  tests.foldl (fun val t => if t.1 then val ||| (1#32 <<< t.2) else val) 0

/-- The Interrupt Control State register. -/
def readControlState (g : State armv7m) : BitVec 32 :=
  let running := g.runningIrq 0
  let vectactive := if running = 1023 then 0 else if running ≥ 32 then running - 16 else running
  let pending irq := decide ((g.irqState irq).pending ≠ 0)
  let val := BitVec.ofNat 32 vectactive ||| flags
    [(decide (running = 1023 ∨ g.lastActive running 0 = 1023), 11)]
  let val := if g.currentPending 0 ≠ 1023 then val ||| (BitVec.ofNat 32 (g.currentPending 0) <<< 12)
    else val
  val ||| flags
    [((List.range' 32 (armv7m.nirq - 32)).any pending, 22), (pending excpSystick, 26),
      (pending excpPendsv, 28), (pending excpNmi, 31)]

/-- The System Handler Status register. -/
def readHandlerStatus (g : State armv7m) : BitVec 32 :=
  let active irq := decide ((g.irqState irq).active ≠ 0)
  let pending irq := decide ((g.irqState irq).pending ≠ 0)
  let enabled irq := decide ((g.irqState irq).enabled ≠ 0)
  flags
    [(active excpMem, 0), (active excpBus, 1), (active excpUsage, 3), (active excpSvc, 7),
      (active excpDebug, 8), (active excpPendsv, 10), (active excpSystick, 11),
      (pending excpUsage, 12), (pending excpMem, 13), (pending excpBus, 14), (pending excpSvc, 15),
      (enabled excpMem, 16), (enabled excpBus, 17), (enabled excpUsage, 18)]

/-- A System Handler Priority register; `irq` is the first of its four. -/
def readHandlerPriority (g : State armv7m) (irq : Nat) : BitVec 32 :=
  let priority i := BitVec.ofNat 32 (g.priority1 (irq + i) 0)
  priority 0 ||| (priority 1 <<< 8) ||| (priority 2 <<< 16) ||| (priority 3 <<< 24)

def nvicReadl (scale : Int) (s : NvicState) (offset : Nat) : Except Fault (BitVec 32 × NvicState) :=
  match offset with
  | 4 => .ok (BitVec.ofNat 32 (armv7m.nirq / 32 - 1), s)
  | 0x10 =>
    let (val, systick) := readControl s.systick
    .ok (val, { s with systick := systick })
  | 0x14 => .ok (s.systick.reload, s)
  | 0x18 => do
    let val ← readCurrent scale s.now s.systick
    .ok (val, s)
  | 0x1c => .ok (10000, s)
  | 0xd00 => .ok (s.cpuid, s)
  | 0xd04 => .ok (readControlState s.gic, s)
  | 0xd08 => .ok (s.vecbase, s)
  | 0xd0c => .ok (0xfa05000, s)
  | 0xd10 => .ok (0, s)
  | 0xd14 => .ok (0, s)
  | 0xd18 => .ok (readHandlerPriority s.gic 4, s)
  | 0xd1c => .ok (readHandlerPriority s.gic 8, s)
  | 0xd20 => .ok (readHandlerPriority s.gic 12, s)
  | 0xd24 => .ok (readHandlerStatus s.gic, s)
  | 0xd28 => .error (.hwError "Not implemented: Configurable Fault Status." [])
  | 0xd40 => .ok (0x00000030, s)
  | 0xd44 => .ok (0x00000200, s)
  | 0xd48 => .ok (0x00100000, s)
  | 0xd4c => .ok (0x00000000, s)
  | 0xd50 => .ok (0x00000030, s)
  | 0xd54 => .ok (0x00000000, s)
  | 0xd58 => .ok (0x00000000, s)
  | 0xd5c => .ok (0x00000000, s)
  | 0xd60 => .ok (0x01141110, s)
  | 0xd64 => .ok (0x02111000, s)
  | 0xd68 => .ok (0x21112231, s)
  | 0xd6c => .ok (0x01111110, s)
  | 0xd70 => .ok (0x01310102, s)
  | _ => .error (.hwError "NVIC: Bad read offset 0x%x\n" [offset])

/-! ## Writes -/

/-- The clear half of a set/clear pair of the Interrupt Control State register. -/
def clearPending (irq : Nat) : NvicState :=
  s.withGic (gicUpdate (s.gic.modify irq fun q => { q with pending := 0 }))

/-- A set/clear pair: bit `set` pends `irq`, otherwise bit `clear` clears it. -/
def writePair (value : BitVec 32) (set clear irq : Nat) : Except Fault NvicState :=
  if value.getLsbD set then armv7mNvicSetPending s irq
  else if value.getLsbD clear then .ok (clearPending s irq)
  else .ok s

def writeControlState (value : BitVec 32) : Except Fault NvicState := do
  let s ← (if value.getLsbD 31 then armv7mNvicSetPending s excpNmi else .ok s)
  let s ← writePair s value 28 27 excpPendsv
  writePair s value 26 25 excpSystick

def writeResetControl (value : BitVec 32) : Except Fault NvicState :=
  if value >>> 16 = 0x05fa#32 then
    if value &&& 2#32 ≠ 0#32 then .error (.hwError "VECTCLRACTIVE not implemented" [])
    else if value &&& 5#32 ≠ 0#32 then .error (.hwError "System reset" [])
    else .ok s
  else .ok s

/-- A System Handler Priority register; `irq` is the first of its four. -/
def writeHandlerPriority (irq : Nat) (value : BitVec 32) : NvicState :=
  let byte i := ((value >>> (8 * i)) &&& 0xff#32).toNat
  s.withGic (gicUpdate ((List.range 4).foldl (fun g i => setPriority g (irq + i) 0 (byte i)) s.gic))

end

/-- The System Handler Control register. There is no call of `gic_update`. -/
def handlerControl (g : State armv7m) (value : BitVec 32) : State armv7m :=
  let enable (g : State armv7m) (irq bit : Nat) :=
    g.modify irq fun q => { q with enabled := BitVec.ofNat armv7m.ncpu (value.getLsbD bit).toNat }
  enable (enable (enable g excpMem 16) excpBus 17) excpUsage 18

def nvicWritel (scale : Int) (s : NvicState) (offset : Nat) (value : BitVec 32) :
    Except Fault NvicState :=
  match offset with
  | 0x10 => .ok { s with systick := writeControl scale s.now s.systick value }
  | 0x14 => .ok { s with systick := writeReload s.systick value }
  | 0x18 => .ok { s with systick := writeCurrent scale s.now s.systick }
  | 0xd04 => writeControlState s value
  | 0xd08 => .ok { s with vecbase := value &&& 0xffffff80#32 }
  | 0xd0c => writeResetControl s value
  | 0xd18 => .ok (writeHandlerPriority s 4 value)
  | 0xd1c => .ok (writeHandlerPriority s 8 value)
  | 0xd20 => .ok (writeHandlerPriority s 12 value)
  | 0xd24 => .ok (s.withGic (handlerControl s.gic value))
  | _ => .error (.hwError "NVIC: Bad write offset 0x%x\n" [offset])

/-- `gic_dist_readl` of the NVIC build. -/
def nvicDistReadl (scale : Int) (s : NvicState) (offset : Nat) :
    Except Fault (BitVec 32 × NvicState) :=
  if offset < 0x100 ∨ offset > 0xd00 then nvicReadl scale s offset
  else do
    let val ← gicDistReadl s.gic 0 offset
    .ok (val, s)

/-- `gic_dist_writel` of the NVIC build. -/
def nvicDistWritel (scale : Int) (s : NvicState) (offset : Nat) (value : BitVec 32) :
    Except Fault NvicState :=
  if offset < 0x100 ∨ (offset > 0xd00 ∧ offset ≠ 0xf00) then nvicWritel scale s offset value
  else do
    let g ← gicDistWritel s.gic 0 offset value
    .ok (s.withGic g)

/-! ## The controller as a machine -/

inductive NvicEvent
  | advance (ns : Nat)
  | setIrq (irq : Nat) (level : Int)
  | setPending (irq : Nat)
  | acknowledge
  | complete (irq : Nat)
  | readb (offset : Nat)
  | readw (offset : Nat)
  | readl (offset : Nat)
  | writeb (offset : Nat) (value : BitVec 8)
  | writew (offset : Nat) (value : BitVec 16)
  | writel (offset : Nat) (value : BitVec 32)
  | runTimers

def nvicStep (scale : Int) (s : NvicState) : NvicEvent → Except Fault NvicState
  | .advance ns => .ok { s with now := s.now + ns }
  | .setIrq irq level => do let g ← gicSetIrq s.gic irq level; .ok (s.withGic g)
  | .setPending irq => armv7mNvicSetPending s irq
  | .acknowledge => do let (_, s) ← armv7mNvicAcknowledgeIrq s; .ok s
  | .complete irq => armv7mNvicCompleteIrq s irq
  | .readb offset => do let _ ← gicDistReadb s.gic 0 offset; .ok s
  | .readw offset => do let _ ← gicDistReadw s.gic 0 offset; .ok s
  | .readl offset => do let (_, s) ← nvicDistReadl scale s offset; .ok s
  | .writeb offset value => do
    let g ← gicDistWriteb s.gic 0 offset (value.setWidth 32); .ok (s.withGic g)
  | .writew offset value => do
    let g ← gicDistWritew s.gic 0 offset (value.setWidth 32); .ok (s.withGic g)
  | .writel offset value => nvicDistWritel scale s offset value
  | .runTimers => nvicRunTimers scale s

/-- `armv7m_nvic_init`, at time `now`. -/
def NvicState.start (cpuid : BitVec 32) (now : Nat) : NvicState :=
  ⟨gicInit armv7m, ⟨0, 0, 0, none⟩, cpuid, 0, now⟩

end QemuStm32.Nvic
