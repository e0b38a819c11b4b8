import QemuStm32.Lib.Words
import QemuStm32.Nvic.Registers

/-!
# Exceptions of the ARMv7-M CPU

`target-arm/helper.c` and `target-arm/cpu.h`: the xPSR in its split form, the two
stack pointers, and the entry to and the return from an exception. The vector
table base is kept with the NVIC, which is where the guest writes it.
-/

namespace QemuStm32.V7m

open Words Nvic

/-- The fields of `CPUState` that exceptions read or write. `CF`, `QF` and
`thumb` are 0 or 1; of `VF` and `NF` only bit 31 counts, of `ZF` whether it is
zero. `currentSp` tells whether the process stack is in use, and `otherSp` holds
the stack pointer that is not. -/
structure Cpu where
  regs : Fin 16 → BitVec 32
  uncachedCpsr : BitVec 32
  cf : Bool
  vf : BitVec 32
  nf : BitVec 32
  zf : BitVec 32
  qf : Bool
  thumb : Bool
  condexecBits : BitVec 32
  otherSp : BitVec 32
  currentSp : Bool
  exception : Nat

scoped instance coreRegisters : NeZero 16 := ⟨by decide⟩

/-- Physical memory: the RAM and what was written elsewhere. -/
structure PhysMemory where
  ramBase : Nat
  ramSize : Nat
  bytes : Memory
  ioWrites : List (BitVec 32 × BitVec 32)

structure Machine where
  cpu : Cpu
  mem : PhysMemory
  nvic : NvicState

/-- What is outside the model: reads that are not from RAM, and semihosting, which
gives a result for `r0` and may write to RAM. -/
structure Host where
  ioRead : BitVec 32 → BitVec 32
  semihostingEnabled : Bool
  lduwCode : Machine → BitVec 32 → BitVec 32
  doArmSemihosting : Machine → BitVec 32 × Memory

/-! ## Memory -/

def PhysMemory.isRam (m : PhysMemory) (addr : Nat) : Bool :=
  m.ramBase ≤ addr && addr < m.ramBase + m.ramSize

variable (host : Host)

def ldlPhys (m : PhysMemory) (addr : BitVec 32) : BitVec 32 :=
  if m.isRam addr.toNat then loadWord m.bytes addr.toNat else host.ioRead addr

def stlPhys (m : PhysMemory) (addr val : BitVec 32) : PhysMemory :=
  if m.isRam addr.toNat then { m with bytes := storeWord m.bytes addr.toNat val }
  else { m with ioWrites := m.ioWrites ++ [(addr, val)] }

/-! ## The xPSR -/

def cpsrQ : BitVec 32 := 1#32 <<< 27
def cpsrZ : BitVec 32 := 1#32 <<< 30
def cpsrNzcv : BitVec 32 := 0xf0000000#32
def cpsrIt01 : BitVec 32 := 3#32 <<< 25
def cpsrIt27 : BitVec 32 := 0xfc00#32
def cpsrIt : BitVec 32 := cpsrIt01 ||| cpsrIt27

def bit (b : Bool) : BitVec 32 := if b then 1#32 else 0#32

def xpsrRead (c : Cpu) : BitVec 32 :=
  (c.nf &&& 0x80000000#32) ||| (bit (c.zf == 0#32) <<< 30) |||
    (bit c.cf <<< 29) ||| ((c.vf &&& 0x80000000#32) >>> 3) ||| (bit c.qf <<< 27) |||
    (bit c.thumb <<< 24) ||| ((c.condexecBits &&& 3#32) <<< 25) |||
    ((c.condexecBits &&& 0xfc#32) <<< 8) ||| BitVec.ofNat 32 c.exception

def xpsrWrite (c : Cpu) (val mask : BitVec 32) : Cpu :=
  let c := if mask &&& cpsrNzcv ≠ 0#32 then
      { c with
        zf := ~~~val &&& cpsrZ
        nf := val
        cf := (val >>> 29) &&& 1#32 ≠ 0#32
        vf := (val <<< 3) &&& 0x80000000#32 }
    else c
  let c := if mask &&& cpsrQ ≠ 0#32 then { c with qf := val &&& cpsrQ ≠ 0#32 } else c
  let c := if mask &&& (1#32 <<< 24) ≠ 0#32 then
      { c with thumb := val &&& (1#32 <<< 24) ≠ 0#32 } else c
  let c := if mask &&& cpsrIt01 ≠ 0#32 then
      { c with condexecBits := (c.condexecBits &&& ~~~3#32) ||| ((val >>> 25) &&& 3#32) } else c
  let c := if mask &&& cpsrIt27 ≠ 0#32 then
      { c with condexecBits := (c.condexecBits &&& 3#32) ||| ((val >>> 8) &&& 0xfc#32) } else c
  if mask &&& 0x1ff#32 ≠ 0#32 then { c with exception := (val &&& 0x1ff#32).toNat } else c

/-! ## Registers and stacks -/

def Cpu.setReg (c : Cpu) (r : Fin 16) (val : BitVec 32) : Cpu :=
  { c with regs := fun i => if i = r then val else c.regs i }

section
variable (m : Machine)

def Machine.setReg (r : Fin 16) (val : BitVec 32) : Machine :=
  { m with cpu := m.cpu.setReg r val }

def v7mPush (val : BitVec 32) : Machine :=
  let m := m.setReg 13 (m.cpu.regs 13 - 4#32)
  { m with mem := stlPhys m.mem (m.cpu.regs 13) val }

def v7mPop : BitVec 32 × Machine :=
  (ldlPhys host m.mem (m.cpu.regs 13), m.setReg 13 (m.cpu.regs 13 + 4#32))

/-- `env->regs[r] = v7m_pop(env)`. -/
def popInto (r : Fin 16) : Machine :=
  let (val, m) := v7mPop host m
  m.setReg r val

def switchV7mSp (c : Cpu) (process : Bool) : Cpu :=
  if c.currentSp ≠ process then
    { c.setReg 13 c.otherSp with otherSp := c.regs 13, currentSp := process }
  else c

/-! ## Return and entry -/

/-- The NVIC is told of the end of an exception other than 0. -/
def completeIrq : Except Fault NvicState :=
  if m.cpu.exception ≠ 0 then armv7mNvicCompleteIrq m.nvic m.cpu.exception else .ok m.nvic

/-- The xPSR popped and written, and the alignment undone. -/
def popXpsr : Machine :=
  let (xpsr, m) := v7mPop host m
  let m := { m with cpu := xpsrWrite m.cpu xpsr 0xfffffdff#32 }
  if xpsr &&& 0x200#32 ≠ 0#32 then m.setReg 13 (m.cpu.regs 13 ||| 4#32) else m

/-- The registers of a frame, from its lowest word. -/
def frameRegs : List (Fin 16) := [0, 1, 2, 3, 12, 14, 15]

/-- What `do_v7m_exception_exit` does to the CPU. -/
def exitCpu : Machine :=
  let type := m.cpu.regs 15
  let m := { m with cpu := switchV7mSp m.cpu (type &&& 4#32 ≠ 0#32) }
  popXpsr host (frameRegs.foldl (popInto host) m)

def doV7mExceptionExit : Except Fault Machine :=
  completeIrq m >>= fun nvic => .ok (exitCpu host { m with nvic := nvic })

/-- The value put in LR. -/
def excReturn (c : Cpu) : BitVec 32 :=
  0xfffffff1#32 ||| (if c.currentSp then 4#32 else 0#32) |||
    (if c.exception = 0 then 8#32 else 0#32)

/-- The stack pointer brought to a multiple of 8, and the xPSR that says so. -/
def alignStack (xpsr : BitVec 32) : Machine × BitVec 32 :=
  if m.cpu.regs 13 &&& 4#32 ≠ 0#32 then
    (m.setReg 13 (m.cpu.regs 13 - 4#32), xpsr ||| 0x200#32)
  else (m, xpsr)

/-- The frame of eight words, pushed on the stack in use. -/
def pushFrame (xpsr : BitVec 32) : Machine :=
  let (m, xpsr) := alignStack m xpsr
  let regs := m.cpu.regs
  [xpsr, regs 15, regs 14, regs 12, regs 3, regs 2, regs 1, regs 0].foldl v7mPush m

/-- The main stack selected, and PC taken from the vector table. -/
def startHandler (lr : BitVec 32) : Machine :=
  let cpu := switchV7mSp m.cpu false
  let cpu := { cpu with uncachedCpsr := cpu.uncachedCpsr &&& ~~~cpsrIt }
  let cpu := cpu.setReg 14 lr
  let addr := ldlPhys host m.mem (m.nvic.vecbase + BitVec.ofNat 32 (cpu.exception * 4))
  { m with cpu := { cpu.setReg 15 (addr &&& 0xfffffffe#32) with thumb := addr &&& 1#32 ≠ 0#32 } }

/-- `EXCP_*`. -/
inductive Excp
  | udef
  | swi
  | prefetchAbort
  | dataAbort
  | irq
  | fiq
  | bkpt
  | exceptionExit
  | kernelTrap
  | strex
  deriving DecidableEq, Repr

def setPending (irq : Nat) : Except Fault Machine :=
  armv7mNvicSetPending m.nvic irq >>= fun nvic => .ok { m with nvic := nvic }

def skipInsn : Machine := m.setReg 15 (m.cpu.regs 15 + 2#32)

end

def doInterruptV7m (exceptionIndex : Excp) (m : Machine) : Except Fault Machine :=
  let xpsr := xpsrRead m.cpu
  let lr := excReturn m.cpu
  match exceptionIndex with
  | .udef => setPending m excpUsage
  | .swi => setPending (skipInsn m) excpSvc
  | .prefetchAbort | .dataAbort => setPending m excpMem
  | .bkpt =>
    if host.semihostingEnabled && host.lduwCode m (m.cpu.regs 15) &&& 0xff#32 == 0xab#32 then
      let m := skipInsn m
      let (result, bytes) := host.doArmSemihosting m
      .ok ({ m with mem := { m.mem with bytes := bytes } }.setReg 0 result)
    else setPending m excpDebug
  | .irq =>
    armv7mNvicAcknowledgeIrq m.nvic >>= fun (exception, nvic) =>
      let m := { m with cpu := { m.cpu with exception := exception }, nvic := nvic }
      .ok (startHandler host (pushFrame m xpsr) lr)
  | .exceptionExit => doV7mExceptionExit host m
  | .fiq | .kernelTrap | .strex => .error (.aborted "Unhandled exception 0x%x\n")

end QemuStm32.V7m
