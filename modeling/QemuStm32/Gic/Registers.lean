import QemuStm32.Gic.State
import QemuStm32.Lib.Runs

/-!
# The register interface of the interrupt controller

The distributor and CPU-interface registers of `hw/arm_gic.c`, the reset state,
and the controller as a machine that takes one access after another.
-/

namespace QemuStm32.Gic

section
variable {c : Config}

/-- `gic_id`. -/
def gicId (c : Config) : List Nat :=
  if c.nvic then [0x00, 0xb0, 0x1b, 0x00, 0x0d, 0xe0, 0x05, 0xb1]
  else [0x90, 0x13, 0x04, 0x00, 0x0d, 0xf0, 0x05, 0xb1]

/-- The word that has bit `place i` set for each `i < n` with `p i`. -/
def collect (n : Nat) (place : Nat → Nat) (p : Nat → Bool) : BitVec 32 :=
  (List.range n).foldl (fun res i => if p i then res ||| (1#32 <<< place i) else res) 0

def badRead (offset : Nat) : Except Fault (BitVec 32) :=
  .error (.hwError "gic_dist_readb: Bad offset %x\n" [offset])

/-- A read of eight interrupts' bits from `irq` on. -/
def readBits (c : Config) (irq offset : Nat) (p : Nat → Bool) : Except Fault (BitVec 32) :=
  if irq ≥ c.nirq then badRead offset else .ok (collect 8 id fun i => p (irq + i))

variable (s : State c)

section
variable (cpu offset : Nat)

def gicDistReadb : Except Fault (BitVec 32) :=
  let cm := cpuMask c cpu
  let mask irq := if irq < 32 then cm else allCpuMask c
  if offset < 0x100 then
    if c.nvic then badRead offset
    else if offset = 0 then .ok (BitVec.ofNat 32 s.enabled.toNat)
    else if offset = 4 then
      .ok (BitVec.ofNat 32 (c.nirq / 32 - 1) ||| (BitVec.ofNat 32 (c.numCpu - 1) <<< 5))
    else if offset < 0x08 then .ok 0
    else badRead offset
  else if offset < 0x200 then
    let irq := (if offset < 0x180 then offset - 0x100 else offset - 0x180) * 8 + baseIrq c
    readBits c irq offset fun i => gicTestEnabled s i cm
  else if offset < 0x300 then
    let irq := (if offset < 0x280 then offset - 0x200 else offset - 0x280) * 8 + baseIrq c
    readBits c irq offset fun i => gicTestPending s i (mask irq)
  else if offset < 0x400 then
    let irq := (offset - 0x300) * 8 + baseIrq c
    readBits c irq offset fun i => gicTestActive s i (mask irq)
  else if offset < 0x800 then
    let irq := (offset - 0x400) + baseIrq c
    if irq ≥ c.nirq then badRead offset else .ok (BitVec.ofNat 32 (gicGetPriority s irq cpu))
  else if !c.nvic && decide (offset < 0xc00) then
    let irq := (offset - 0x800) + baseIrq c
    if irq ≥ c.nirq then badRead offset
    else if irq ≥ 29 ∧ irq ≤ 31 then .ok (cm.setWidth 32)
    else .ok ((gicTarget s irq).setWidth 32)
  else if !c.nvic && decide (offset < 0xf00) then
    -- the read covers two interrupts per byte of offset, the write four
    let irq := (offset - 0xc00) * 2 + baseIrq c
    if irq ≥ c.nirq then badRead offset
    else if irq + 3 ≥ c.nirq then .error (.outOfBounds "irq_state" c.nirq)
    else .ok (collect 4 (· * 2) (fun i => (s.irqState (irq + i)).model) |||
      collect 4 (· * 2 + 1) (fun i => (s.irqState (irq + i)).trigger))
  else if offset < 0xfe0 then badRead offset
  else if offset % 4 ≠ 0 then .ok 0
  else match (gicId c)[(offset - 0xfe0) / 4]? with
    | some v => .ok (BitVec.ofNat 32 v)
    | none => .error (.outOfBounds "gic_id" ((offset - 0xfe0) / 4))

def gicDistReadw : Except Fault (BitVec 32) := do
  let lo ← gicDistReadb s cpu offset
  let hi ← gicDistReadb s cpu (offset + 1)
  .ok (lo ||| (hi <<< 8))

/-- `gic_dist_readl` past its NVIC part. -/
def gicDistReadl : Except Fault (BitVec 32) := do
  let lo ← gicDistReadw s cpu offset
  let hi ← gicDistReadw s cpu (offset + 2)
  .ok (lo ||| (hi <<< 16))

/-! ## Distributor writes -/

def badWrite (offset : Nat) : Except Fault (State c) :=
  .error (.hwError "gic_dist_writeb: Bad offset %x\n" [offset])

/-- The loop over the low `n` bits of a written byte. -/
def forBits (n : Nat) (value : BitVec 32) (f : State c → Nat → State c) (s : State c) : State c :=
  (List.range n).foldl (fun s i => if value.getLsbD i then f s i else s) s

/-- The body of the set-enable loop; `irq` is the first interrupt of the byte
and names the target mask for all eight. -/
def setEnable (cpu irq : Nat) (s : State c) (i : Nat) : State c :=
  let mask := if irq < 32 then cpuMask c cpu else gicTarget s irq
  let cm := if irq < 32 then cpuMask c cpu else allCpuMask c
  let s := gicSetEnabled s (irq + i) cm
  if gicTestLevel s (irq + i) mask && !(s.irqState (irq + i)).trigger then
    gicSetPending s (irq + i) mask
  else s

def clearEnable (cpu irq : Nat) (s : State c) (i : Nat) : State c :=
  gicClearEnabled s (irq + i) (if irq < 32 then cpuMask c cpu else allCpuMask c)

def setPriority (irq cpu value : Nat) : State c :=
  if irq < 32 then { s with priority1 := set s.priority1 irq (set (s.priority1 irq) cpu value) }
  else { s with priority2 := set s.priority2 (irq - 32) value }

def setConfiguration (irq : Nat) (value : BitVec 32) (s : State c) (i : Nat) : State c :=
  gicSetTrigger (gicSetModel s (irq + i) (value.getLsbD (i * 2))) (irq + i)
    (value.getLsbD (i * 2 + 1))

variable (value : BitVec 32)

/-- `gic_dist_writeb` up to the call of `gic_update` that ends every accepted
write. -/
def writeRegister : Except Fault (State c) :=
  if offset < 0x100 then
    if c.nvic then badWrite offset
    else if offset = 0 then .ok { s with enabled := value.getLsbD 0 }
    else if offset < 4 then .ok s
    else badWrite offset
  else if offset < 0x180 then
    let irq := (offset - 0x100) * 8 + baseIrq c
    if irq ≥ c.nirq then badWrite offset
    else
      let value := if irq < 16 then 0xff#32 else value
      .ok (forBits 8 value (setEnable cpu irq) s)
  else if offset < 0x200 then
    let irq := (offset - 0x180) * 8 + baseIrq c
    if irq ≥ c.nirq then badWrite offset
    else
      let value := if irq < 16 then 0#32 else value
      .ok (forBits 8 value (clearEnable cpu irq) s)
  else if offset < 0x280 then
    let irq := (offset - 0x200) * 8 + baseIrq c
    if irq ≥ c.nirq then badWrite offset
    else
      let irq := if irq < 16 then 0 else irq
      .ok (forBits 8 value (fun s i => gicSetPending s (irq + i) (gicTarget s irq)) s)
  else if offset < 0x300 then
    let irq := (offset - 0x280) * 8 + baseIrq c
    if irq ≥ c.nirq then badWrite offset
    else .ok (forBits 8 value (fun s i => gicClearPending s (irq + i) (allCpuMask c)) s)
  else if offset < 0x400 then badWrite offset
  else if offset < 0x800 then
    let irq := (offset - 0x400) + baseIrq c
    if irq ≥ c.nirq then badWrite offset else .ok (setPriority s irq cpu value.toNat)
  else if !c.nvic && decide (offset < 0xc00) then
    let irq := (offset - 0x800) + baseIrq c
    if irq ≥ c.nirq then badWrite offset
    else
      let target :=
        if irq < 29 then 0#c.ncpu else if irq < 32 then allCpuMask c else value.setWidth c.ncpu
      .ok { s with irqTarget := set s.irqTarget irq target }
  else if !c.nvic && decide (offset < 0xf00) then
    let irq := (offset - 0xc00) * 4 + baseIrq c
    if irq ≥ c.nirq then badWrite offset
    else
      let value := if irq < 32 then value ||| 0xaa#32 else value
      .ok ((List.range 4).foldl (setConfiguration irq value) s)
  else badWrite offset

def gicDistWriteb : Except Fault (State c) := do
  let s ← writeRegister s cpu offset value
  .ok (gicUpdate s)

def gicDistWritew : Except Fault (State c) := do
  let s ← gicDistWriteb s cpu offset (value &&& 0xff#32)
  gicDistWriteb s cpu (offset + 1) (value >>> 8)

/-- The target filter of a software interrupt. -/
def softIntMask (c : Config) (cpu : Nat) (value : BitVec 32) : BitVec c.ncpu :=
  match ((value >>> 24) &&& 3#32).toNat with
  | 0 => (value >>> 16).setWidth c.ncpu
  | 1 => allCpuMask c ^^^ cpuMask c cpu
  | 2 => cpuMask c cpu
  | _ => allCpuMask c

/-- `gic_dist_writel` past its NVIC part. -/
def gicDistWritel : Except Fault (State c) :=
  if offset = 0xf00 then
    let irq := (value &&& 0x3ff#32).toNat
    if irq < c.nirq then .ok (gicUpdate (gicSetPending s irq (softIntMask c cpu value)))
    else .error (.outOfBounds "irq_state" irq)
  else do
    let s ← gicDistWritew s cpu offset (value &&& 0xffff#32)
    gicDistWritew s cpu (offset + 2) (value >>> 16)

/-! ## The CPU interface -/

def gicCpuRead : Except Fault (BitVec 32 × State c) :=
  match offset with
  | 0x00 => .ok (BitVec.ofNat 32 (s.cpuEnabled cpu).toNat, s)
  | 0x04 => .ok (BitVec.ofNat 32 (s.priorityMask cpu), s)
  | 0x08 => .ok (0, s)
  | 0x0c => let (irq, s) := gicAcknowledgeIrq s cpu; .ok (BitVec.ofNat 32 irq, s)
  | 0x14 => .ok (BitVec.ofNat 32 (s.runningPriority cpu), s)
  | 0x18 => .ok (BitVec.ofNat 32 (s.currentPending cpu), s)
  | _ => .error (.hwError "gic_cpu_read: Bad offset %x\n" [offset])

def gicCpuWrite : Except Fault (State c) :=
  match offset with
  | 0x00 => .ok (gicUpdate { s with cpuEnabled := set s.cpuEnabled cpu (value.getLsbD 0) })
  | 0x04 =>
    .ok (gicUpdate { s with priorityMask := set s.priorityMask cpu (value &&& 0xff#32).toNat })
  | 0x08 => .ok (gicUpdate s)
  | 0x10 => gicCompleteIrq s cpu (value &&& 0x3ff#32).toNat
  | _ => .error (.hwError "gic_cpu_write: Bad offset %x\n" [offset])

end

/-! ## Reset -/

def gicReset : State c :=
  let fresh : IrqState c.ncpu := ⟨0, 0, 0, 0, false, false⟩
  let perCpu {α : Type} (f : Nat → α) (x : α) : Nat → α := fun i => if i < c.numCpu then x else f i
  { s with
    irqState := fun i =>
      if i < 16 then { fresh with enabled := allCpuMask c, trigger := true } else fresh
    priorityMask := perCpu s.priorityMask 0xf0
    currentPending := perCpu s.currentPending 1023
    runningIrq := perCpu s.runningIrq 1023
    runningPriority := perCpu s.runningPriority 0x100
    cpuEnabled := perCpu s.cpuEnabled c.nvic
    enabled := c.nvic }

/-- The device as it is allocated, before `gic_init`. -/
def State.zero (c : Config) : State c where
  parentIrq := fun _ => false
  enabled := false
  cpuEnabled := fun _ => false
  irqState := fun _ => ⟨0, 0, 0, 0, false, false⟩
  irqTarget := fun _ => 0
  priority1 := fun _ _ => 0
  priority2 := fun _ => 0
  lastActive := fun _ _ => 0
  priorityMask := fun _ => 0
  runningIrq := fun _ => 0
  runningPriority := fun _ => 0
  currentPending := fun _ => 0

def gicInit (c : Config) : State c := gicReset (State.zero c)

/-! ## The controller as a machine -/

/-- What can happen to the controller. `cpu` is the CPU that makes the access
(`gic_get_current_cpu`) or whose interface is addressed; a byte or halfword
access carries a value of its own width. -/
inductive Event (c : Config)
  | setIrq (irq : Nat) (level : Int)
  | setPendingPrivate (cpu : Fin c.numCpu) (irq : Nat)
  | readb (cpu : Fin c.numCpu) (offset : Nat)
  | readw (cpu : Fin c.numCpu) (offset : Nat)
  | readl (cpu : Fin c.numCpu) (offset : Nat)
  | writeb (cpu : Fin c.numCpu) (offset : Nat) (value : BitVec 8)
  | writew (cpu : Fin c.numCpu) (offset : Nat) (value : BitVec 16)
  | writel (cpu : Fin c.numCpu) (offset : Nat) (value : BitVec 32)
  | cpuRead (cpu : Fin c.numCpu) (offset : Nat)
  | cpuWrite (cpu : Fin c.numCpu) (offset : Nat) (value : BitVec 32)

def gicStep : Event c → Except Fault (State c)
  | .setIrq irq level => gicSetIrq s irq level
  | .setPendingPrivate cpu irq => gicSetPendingPrivate s cpu irq
  | .readb cpu offset => do let _ ← gicDistReadb s cpu offset; .ok s
  | .readw cpu offset => do let _ ← gicDistReadw s cpu offset; .ok s
  | .readl cpu offset => do let _ ← gicDistReadl s cpu offset; .ok s
  | .writeb cpu offset value => gicDistWriteb s cpu offset (value.setWidth 32)
  | .writew cpu offset value => gicDistWritew s cpu offset (value.setWidth 32)
  | .writel cpu offset value => gicDistWritel s cpu offset value
  | .cpuRead cpu offset => do let (_, s) ← gicCpuRead s cpu offset; .ok s
  | .cpuWrite cpu offset value => gicCpuWrite s cpu offset value

end

end QemuStm32.Gic
