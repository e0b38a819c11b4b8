import QemuStm32.Gic.Registers

/-!
# The interrupt controller on arrays of their declared sizes

The functions of `hw/arm_gic.c` once more, with every array as long as the
source declares it: `GIC_NIRQ` entries for the interrupts, of which the
priorities are kept in an array of 32 and one for the rest, and one entry for
each CPU. An index outside an array is a fault that names the array.
-/

namespace QemuStm32.Gic.Checked

section
variable {c : Config}

/-- `array[i]`, and the array with this entry replaced. -/
def load {α : Type} (array : String) (size : Nat) (f : Nat → α) (i : Nat) : Except Fault α :=
  if i < size then .ok (f i) else .error (.outOfBounds array i)

def store {α : Type} (array : String) (size : Nat) (f : Nat → α) (i : Nat) (x : α) :
    Except Fault (Nat → α) :=
  if i < size then .ok (set f i x) else .error (.outOfBounds array i)

section
variable (s : State c)

def irqState (irq : Nat) : Except Fault (IrqState c.ncpu) :=
  load "irq_state" c.nirq s.irqState irq

def modify (irq : Nat) (f : IrqState c.ncpu → IrqState c.ncpu) : Except Fault (State c) := do
  let q ← irqState s irq
  let array ← store "irq_state" c.nirq s.irqState irq (f q)
  .ok { s with irqState := array }

def gicGetPriority (irq cpu : Nat) : Except Fault Nat :=
  if irq < 32 then do
    let row ← load "priority1" 32 s.priority1 irq
    load "priority1" c.numCpu row cpu
  else load "priority2" (c.nirq - 32) s.priority2 (irq - 32)

def gicTarget (irq : Nat) : Except Fault (BitVec c.ncpu) :=
  if c.nvic then .ok 1#c.ncpu else load "irq_target" c.nirq s.irqTarget irq

/-! ## The interrupt decision -/

def searchBest (cpu : Nat) (best : Nat × Nat) (irq : Nat) : Except Fault (Nat × Nat) := do
  let q ← irqState s irq
  if q.enabled &&& cpuMask c cpu ≠ 0#c.ncpu ∧ q.pending &&& cpuMask c cpu ≠ 0#c.ncpu then do
    let priority ← gicGetPriority s irq cpu
    .ok (if priority < best.1 then (priority, irq) else best)
  else .ok best

def findBest (cpu : Nat) : Except Fault (Nat × Nat) :=
  (List.range c.nirq).foldlM (searchBest s cpu) (0x100, 1023)

def setParent (cpu : Nat) (level : Bool) : Except Fault (State c) := do
  let array ← store "parent_irq" c.numCpu s.parentIrq cpu level
  .ok { s with parentIrq := array }

def setCurrentPending (cpu irq : Nat) : Except Fault (State c) := do
  let array ← store "current_pending" c.numCpu s.currentPending cpu irq
  .ok { s with currentPending := array }

/-- The end of a round for an enabled CPU. -/
def signal (cpu : Nat) (best : Nat × Nat) : Except Fault (State c) := do
  let mask ← load "priority_mask" c.numCpu s.priorityMask cpu
  if best.1 ≤ mask then do
    let s ← setCurrentPending s cpu best.2
    let running ← load "running_priority" c.numCpu s.runningPriority cpu
    setParent s cpu (decide (best.1 < running))
  else setParent s cpu false

end

def gicUpdateFrom : Nat → Nat → State c → Except Fault (State c)
  | 0, _, s => .ok s
  | n + 1, cpu, s => do
    let s ← setCurrentPending s cpu 1023
    let on ← if s.enabled then load "cpu_enabled" c.numCpu s.cpuEnabled cpu else .ok false
    if on then do
      let best ← findBest s cpu
      let s ← signal s cpu best
      gicUpdateFrom n (cpu + 1) s
    else setParent s cpu false

variable (s : State c)

def gicUpdate : Except Fault (State c) := gicUpdateFrom c.numCpu 0 s

section
variable (cpu irq : Nat)

def gicSetPendingPrivate : Except Fault (State c) := do
  let q ← irqState s irq
  if q.pending &&& cpuMask c cpu ≠ 0#c.ncpu then .ok s
  else do
    let s ← modify s irq fun q => { q with pending := q.pending ||| cpuMask c cpu }
    gicUpdate s

/-- The line of `irq` went high. -/
def raiseLine (irq : Nat) : Except Fault (State c) := do
  let s ← modify s irq fun q => { q with level := allCpuMask c }
  let q ← irqState s irq
  if q.trigger = true ∨ q.enabled &&& allCpuMask c ≠ 0#c.ncpu then do
    let target ← gicTarget s irq
    modify s irq fun q => { q with pending := q.pending ||| target }
  else .ok s

def gicSetIrq (irq : Nat) (level : Int) : Except Fault (State c) := do
  let q ← irqState s (irq + 32)
  if level = (decide (q.level &&& allCpuMask c ≠ 0#c.ncpu)).toNat then .ok s
  else if level ≠ 0 then do
    let s ← raiseLine s (irq + 32)
    gicUpdate s
  else do
    let s ← modify s (irq + 32) fun q => { q with level := q.level &&& ~~~allCpuMask c }
    gicUpdate s

/-! ## Acknowledge and completion -/

def gicSetRunningIrq : Except Fault (State c) := do
  let runningIrq ← store "running_irq" c.numCpu s.runningIrq cpu irq
  let s := { s with runningIrq := runningIrq }
  let priority ← if irq = 1023 then .ok 0x100 else gicGetPriority s irq cpu
  let runningPriority ← store "running_priority" c.numCpu s.runningPriority cpu priority
  gicUpdate { s with runningPriority := runningPriority }

def lastActive (s : State c) (irq cpu : Nat) : Except Fault Nat := do
  let row ← load "last_active" c.nirq s.lastActive irq
  load "last_active" c.numCpu row cpu

def setLastActive (irq cpu value : Nat) : Except Fault (State c) := do
  let row ← load "last_active" c.nirq s.lastActive irq
  let row ← store "last_active" c.numCpu row cpu value
  let array ← store "last_active" c.nirq s.lastActive irq row
  .ok { s with lastActive := array }

/-- The interrupt `newIrq` taken by an acknowledge. -/
def takeIrq (cpu newIrq : Nat) : Except Fault (Nat × State c) := do
  let runningIrq ← load "running_irq" c.numCpu s.runningIrq cpu
  let s ← setLastActive s newIrq cpu runningIrq
  let s ← modify s newIrq fun q =>
    { q with pending := q.pending &&& ~~~(if q.model then allCpuMask c else cpuMask c cpu) }
  let s ← gicSetRunningIrq s cpu newIrq
  .ok (newIrq, s)

def gicAcknowledgeIrq (cpu : Nat) : Except Fault (Nat × State c) := do
  let newIrq ← load "current_pending" c.numCpu s.currentPending cpu
  if newIrq = 1023 then .ok (1023, s)
  else do
    let priority ← gicGetPriority s newIrq cpu
    let running ← load "running_priority" c.numCpu s.runningPriority cpu
    if priority ≥ running then .ok (1023, s) else takeIrq s cpu newIrq

def findActive (s : State c) (cpu irq : Nat) : Nat → Nat → Except Fault (Option Nat)
  | 0, _ => .error .endlessLoop
  | rounds + 1, tmp => do
    let next ← lastActive s tmp cpu
    if next = 1023 then .ok none
    else if next = irq then .ok (some tmp)
    else findActive s cpu irq rounds next

def unlink : Option Nat → Except Fault (State c)
  | some tmp => do
    let next ← lastActive s irq cpu
    setLastActive s tmp cpu next
  | none => .ok s

def repend : Except Fault (State c × Bool) :=
  if irq ≠ 1023 then do
    let q ← irqState s irq
    if q.trigger = false ∧ q.enabled &&& cpuMask c cpu ≠ 0#c.ncpu ∧
        q.level &&& cpuMask c cpu ≠ 0#c.ncpu then do
      let target ← gicTarget s irq
      if target &&& cpuMask c cpu ≠ 0#c.ncpu then do
        let s ← modify s irq fun q => { q with pending := q.pending ||| cpuMask c cpu }
        .ok (s, true)
      else .ok (s, false)
    else .ok (s, false)
  else .ok (s, false)

/-- The second half of `gic_complete_irq`. -/
def leaveIrq (cpu irq running : Nat) (update : Bool) : Except Fault (State c) :=
  if irq ≠ running then do
    let found ← findActive s cpu irq (c.nirq + 1) running
    let s ← unlink s cpu irq found
    if update then gicUpdate s else .ok s
  else do
    let previous ← lastActive s running cpu
    gicSetRunningIrq s cpu previous

def gicCompleteIrq : Except Fault (State c) := do
  let running ← load "running_irq" c.numCpu s.runningIrq cpu
  if running = 1023 then .ok s
  else do
    let (s, update) ← repend s cpu irq
    leaveIrq s cpu irq running update

end

/-! ## Registers -/

def collect (n : Nat) (p : Nat → Except Fault Bool) : Except Fault (BitVec 32) :=
  (List.range n).foldlM (fun res i => do
    let bit ← p i
    .ok (if bit then res ||| (1#32 <<< i) else res)) 0

def readBits (irq offset : Nat) (p : IrqState c.ncpu → Bool) : Except Fault (BitVec 32) :=
  if irq ≥ c.nirq then badRead offset
  else collect 8 fun i => do
    let q ← irqState s (irq + i)
    .ok (p q)

/-- A round of the loop that reads a configuration byte. -/
def readConfiguration (irq : Nat) (res : BitVec 32) (i : Nat) : Except Fault (BitVec 32) := do
  let q ← irqState s (irq + i)
  let res := if q.model then res ||| (1#32 <<< (i * 2)) else res
  .ok (if q.trigger then res ||| (1#32 <<< (i * 2 + 1)) else res)

section
variable (cpu offset : Nat)

def gicDistReadb : Except Fault (BitVec 32) :=
  let cm := cpuMask c cpu
  let mask irq := if irq < 32 then cm else allCpuMask c
  if offset < 0x100 then
    if c.nvic then badRead offset
    else if offset = 0 then .ok (BitVec.ofNat 32 s.enabled.toNat)
    else if offset = 4 then
      .ok (BitVec.ofNat 32 (c.nirq / 32 - 1) ||| (BitVec.ofNat 32 (c.numCpu - 1) <<< 5))
    else if offset < 0x08 then .ok 0
    else badRead offset
  else if offset < 0x200 then
    let irq := (if offset < 0x180 then offset - 0x100 else offset - 0x180) * 8 + baseIrq c
    readBits s irq offset fun q => decide (q.enabled &&& cm ≠ 0#c.ncpu)
  else if offset < 0x300 then
    let irq := (if offset < 0x280 then offset - 0x200 else offset - 0x280) * 8 + baseIrq c
    readBits s irq offset fun q => decide (q.pending &&& mask irq ≠ 0#c.ncpu)
  else if offset < 0x400 then
    let irq := (offset - 0x300) * 8 + baseIrq c
    readBits s irq offset fun q => decide (q.active &&& mask irq ≠ 0#c.ncpu)
  else if offset < 0x800 then
    let irq := (offset - 0x400) + baseIrq c
    if irq ≥ c.nirq then badRead offset
    else do
      let priority ← gicGetPriority s irq cpu
      .ok (BitVec.ofNat 32 priority)
  else if !c.nvic && decide (offset < 0xc00) then
    let irq := (offset - 0x800) + baseIrq c
    if irq ≥ c.nirq then badRead offset
    else if irq ≥ 29 ∧ irq ≤ 31 then .ok (cm.setWidth 32)
    else do
      let target ← gicTarget s irq
      .ok (target.setWidth 32)
  else if !c.nvic && decide (offset < 0xf00) then
    let irq := (offset - 0xc00) * 2 + baseIrq c
    if irq ≥ c.nirq then badRead offset
    else (List.range 4).foldlM (readConfiguration s irq) 0
  else if offset < 0xfe0 then badRead offset
  else if offset % 4 ≠ 0 then .ok 0
  else do
    let byte ← load "gic_id" (gicId c).length ((gicId c).getD · 0) ((offset - 0xfe0) / 4)
    .ok (BitVec.ofNat 32 byte)

def gicDistReadw : Except Fault (BitVec 32) := do
  let lo ← gicDistReadb s cpu offset
  let hi ← gicDistReadb s cpu (offset + 1)
  .ok (lo ||| (hi <<< 8))

def gicDistReadl : Except Fault (BitVec 32) := do
  let lo ← gicDistReadw s cpu offset
  let hi ← gicDistReadw s cpu (offset + 2)
  .ok (lo ||| (hi <<< 16))

def forBits (n : Nat) (value : BitVec 32) (f : State c → Nat → Except Fault (State c))
    (s : State c) : Except Fault (State c) :=
  (List.range n).foldlM (fun s i => if value.getLsbD i then f s i else .ok s) s

/-- The round of the set-enable loop once `mask` is known. -/
def enableIrq (irq : Nat) (mask cm : BitVec c.ncpu) : Except Fault (State c) := do
  let s ← modify s irq fun q => { q with enabled := q.enabled ||| cm }
  let q ← irqState s irq
  if q.level &&& mask ≠ 0#c.ncpu ∧ q.trigger = false then
    modify s irq fun q => { q with pending := q.pending ||| mask }
  else .ok s

def setEnable (cpu irq : Nat) (s : State c) (i : Nat) : Except Fault (State c) :=
  if irq < 32 then enableIrq s (irq + i) (cpuMask c cpu) (cpuMask c cpu)
  else do
    let mask ← gicTarget s irq
    enableIrq s (irq + i) mask (allCpuMask c)

def clearEnable (cpu irq : Nat) (s : State c) (i : Nat) : Except Fault (State c) :=
  modify s (irq + i) fun q =>
    { q with enabled := q.enabled &&& ~~~(if irq < 32 then cpuMask c cpu else allCpuMask c) }

def setPending (irq : Nat) (s : State c) (i : Nat) : Except Fault (State c) := do
  let target ← gicTarget s irq
  modify s (irq + i) fun q => { q with pending := q.pending ||| target }

def setPriority (irq cpu value : Nat) : Except Fault (State c) :=
  if irq < 32 then do
    let row ← load "priority1" 32 s.priority1 irq
    let row ← store "priority1" c.numCpu row cpu value
    let array ← store "priority1" 32 s.priority1 irq row
    .ok { s with priority1 := array }
  else do
    let array ← store "priority2" (c.nirq - 32) s.priority2 (irq - 32) value
    .ok { s with priority2 := array }

def setTarget (irq : Nat) (target : BitVec c.ncpu) : Except Fault (State c) := do
  let array ← store "irq_target" c.nirq s.irqTarget irq target
  .ok { s with irqTarget := array }

def setConfiguration (irq : Nat) (value : BitVec 32) (s : State c) (i : Nat) :
    Except Fault (State c) := do
  let s ← modify s (irq + i) fun q => { q with model := value.getLsbD (i * 2) }
  modify s (irq + i) fun q => { q with trigger := value.getLsbD (i * 2 + 1) }

variable (value : BitVec 32)

def writeRegister : Except Fault (State c) :=
  if offset < 0x100 then
    if c.nvic then badWrite offset
    else if offset = 0 then .ok { s with enabled := value.getLsbD 0 }
    else if offset < 4 then .ok s
    else badWrite offset
  else if offset < 0x180 then
    let irq := (offset - 0x100) * 8 + baseIrq c
    if irq ≥ c.nirq then badWrite offset
    else
      let value := if irq < 16 then 0xff#32 else value
      forBits 8 value (setEnable cpu irq) s
  else if offset < 0x200 then
    let irq := (offset - 0x180) * 8 + baseIrq c
    if irq ≥ c.nirq then badWrite offset
    else
      let value := if irq < 16 then 0#32 else value
      forBits 8 value (clearEnable cpu irq) s
  else if offset < 0x280 then
    let irq := (offset - 0x200) * 8 + baseIrq c
    if irq ≥ c.nirq then badWrite offset
    else
      let irq := if irq < 16 then 0 else irq
      forBits 8 value (setPending irq) s
  else if offset < 0x300 then
    let irq := (offset - 0x280) * 8 + baseIrq c
    if irq ≥ c.nirq then badWrite offset
    else forBits 8 value (fun s i => modify s (irq + i) fun q =>
      { q with pending := q.pending &&& ~~~allCpuMask c }) s
  else if offset < 0x400 then badWrite offset
  else if offset < 0x800 then
    let irq := (offset - 0x400) + baseIrq c
    if irq ≥ c.nirq then badWrite offset else setPriority s irq cpu value.toNat
  else if !c.nvic && decide (offset < 0xc00) then
    let irq := (offset - 0x800) + baseIrq c
    if irq ≥ c.nirq then badWrite offset
    else
      let target :=
        if irq < 29 then 0#c.ncpu else if irq < 32 then allCpuMask c else value.setWidth c.ncpu
      setTarget s irq target
  else if !c.nvic && decide (offset < 0xf00) then
    let irq := (offset - 0xc00) * 4 + baseIrq c
    if irq ≥ c.nirq then badWrite offset
    else
      let value := if irq < 32 then value ||| 0xaa#32 else value
      (List.range 4).foldlM (setConfiguration irq value) s
  else badWrite offset

def gicDistWriteb : Except Fault (State c) := do
  let s ← writeRegister s cpu offset value
  gicUpdate s

def gicDistWritew : Except Fault (State c) := do
  let s ← gicDistWriteb s cpu offset (value &&& 0xff#32)
  gicDistWriteb s cpu (offset + 1) (value >>> 8)

def gicDistWritel : Except Fault (State c) :=
  if offset = 0xf00 then do
    let s ← modify s (value &&& 0x3ff#32).toNat fun q =>
      { q with pending := q.pending ||| softIntMask c cpu value }
    gicUpdate s
  else do
    let s ← gicDistWritew s cpu offset (value &&& 0xffff#32)
    gicDistWritew s cpu (offset + 2) (value >>> 16)

/-! ## The CPU interface -/

def gicCpuRead : Except Fault (BitVec 32 × State c) :=
  match offset with
  | 0x00 => do
    let enabled ← load "cpu_enabled" c.numCpu s.cpuEnabled cpu
    .ok (BitVec.ofNat 32 enabled.toNat, s)
  | 0x04 => do
    let mask ← load "priority_mask" c.numCpu s.priorityMask cpu
    .ok (BitVec.ofNat 32 mask, s)
  | 0x08 => .ok (0, s)
  | 0x0c => do
    let (irq, s) ← gicAcknowledgeIrq s cpu
    .ok (BitVec.ofNat 32 irq, s)
  | 0x14 => do
    let priority ← load "running_priority" c.numCpu s.runningPriority cpu
    .ok (BitVec.ofNat 32 priority, s)
  | 0x18 => do
    let irq ← load "current_pending" c.numCpu s.currentPending cpu
    .ok (BitVec.ofNat 32 irq, s)
  | _ => .error (.hwError "gic_cpu_read: Bad offset %x\n" [offset])

def gicCpuWrite : Except Fault (State c) :=
  match offset with
  | 0x00 => do
    let array ← store "cpu_enabled" c.numCpu s.cpuEnabled cpu (value.getLsbD 0)
    gicUpdate { s with cpuEnabled := array }
  | 0x04 => do
    let array ← store "priority_mask" c.numCpu s.priorityMask cpu (value &&& 0xff#32).toNat
    gicUpdate { s with priorityMask := array }
  | 0x08 => gicUpdate s
  | 0x10 => gicCompleteIrq s cpu (value &&& 0x3ff#32).toNat
  | _ => .error (.hwError "gic_cpu_write: Bad offset %x\n" [offset])

end

def step : Event c → Except Fault (State c)
  | .setIrq irq level => gicSetIrq s irq level
  | .setPendingPrivate cpu irq => gicSetPendingPrivate s cpu irq
  | .readb cpu offset => do let _ ← gicDistReadb s cpu offset; .ok s
  | .readw cpu offset => do let _ ← gicDistReadw s cpu offset; .ok s
  | .readl cpu offset => do let _ ← gicDistReadl s cpu offset; .ok s
  | .writeb cpu offset value => gicDistWriteb s cpu offset (value.setWidth 32)
  | .writew cpu offset value => gicDistWritew s cpu offset (value.setWidth 32)
  | .writel cpu offset value => gicDistWritel s cpu offset value
  | .cpuRead cpu offset => do let (_, s) ← gicCpuRead s cpu offset; .ok s
  | .cpuWrite cpu offset value => gicCpuWrite s cpu offset value

end

end QemuStm32.Gic.Checked
