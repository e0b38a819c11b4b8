import QemuStm32.Fault
import QemuStm32.Lib.Bits

/-!
# The ARM interrupt controller

`hw/arm_gic.c`, which is compiled once for the RealView controller, once for
the MPCore distributor and once for the ARMv7-M NVIC. The preprocessor symbols
that tell the variants apart are the fields of `Config`.
-/

namespace QemuStm32.Gic

/-- `NVIC`, `NCPU`, `NUM_CPU(s)` and `GIC_NIRQ`. A byte register covers eight
interrupts and the number of interrupts is a multiple of 32 in every variant. -/
structure Config where
  nvic : Bool
  ncpu : Nat
  numCpu : Nat
  nirq : Nat
  cpu_pos : 0 < numCpu
  cpu_le : numCpu ≤ ncpu
  nirq_ge : 32 ≤ nirq
  nirq_lt : nirq < 1023
  nirq_words : nirq % 32 = 0

/-- `hw/realview_gic.c`. -/
def realview : Config := ⟨false, 1, 1, 96, by decide, by decide, by decide, by decide, by decide⟩

/-- `hw/mpcore.c` as `hw/a9mpcore.c` includes it, with two of its four CPUs. -/
def a9mpcore : Config := ⟨false, 4, 2, 96, by decide, by decide, by decide, by decide, by decide⟩

/-- `hw/armv7m_nvic.c`. -/
def armv7m : Config := ⟨true, 1, 1, 96, by decide, by decide, by decide, by decide, by decide⟩

/-- `gic_irq_state`: the banked bits have one position per CPU. -/
structure IrqState (ncpu : Nat) where
  enabled : BitVec ncpu
  pending : BitVec ncpu
  active : BitVec ncpu
  level : BitVec ncpu
  model : Bool
  trigger : Bool
  deriving DecidableEq, Repr

/-- `gic_state`. `parentIrq` is the level last set on each CPU's line. -/
structure State (c : Config) where
  parentIrq : Nat → Bool
  enabled : Bool
  cpuEnabled : Nat → Bool
  irqState : Nat → IrqState c.ncpu
  irqTarget : Nat → BitVec c.ncpu
  priority1 : Nat → Nat → Nat
  priority2 : Nat → Nat
  lastActive : Nat → Nat → Nat
  priorityMask : Nat → Nat
  runningIrq : Nat → Nat
  runningPriority : Nat → Nat
  currentPending : Nat → Nat

/-- An array with one entry replaced. -/
def set {α : Type} (f : Nat → α) (i : Nat) (x : α) : Nat → α := fun j => if j = i then x else f j

variable {α : Type}

@[simp] theorem set_same (f : Nat → α) (i : Nat) (x : α) : set f i x i = x := by
  simp [set]

theorem set_other (f : Nat → α) {i j : Nat} (x : α) (h : j ≠ i) : set f i x j = f j := by
  simp [set, h]

section
variable {c : Config}

/-- `GIC_BASE_IRQ`. -/
def baseIrq (c : Config) : Nat := if c.nvic then 32 else 0

/-- `ALL_CPU_MASK` and `1 << cpu`. -/
def allCpuMask (c : Config) : BitVec c.ncpu := BitVec.allOnes c.ncpu
def cpuMask (c : Config) (cpu : Nat) : BitVec c.ncpu := 1#c.ncpu <<< cpu

section
variable (s : State c)

section
variable (irq : Nat)

def State.modify (f : IrqState c.ncpu → IrqState c.ncpu) : State c :=
  { s with irqState := set s.irqState irq (f (s.irqState irq)) }

variable (cm : BitVec c.ncpu)

def gicSetEnabled : State c :=
  s.modify irq fun q => { q with enabled := q.enabled ||| cm }
def gicClearEnabled : State c :=
  s.modify irq fun q => { q with enabled := q.enabled &&& ~~~cm }
def gicTestEnabled : Bool :=
  decide ((s.irqState irq).enabled &&& cm ≠ 0#c.ncpu)
def gicSetPending : State c :=
  s.modify irq fun q => { q with pending := q.pending ||| cm }
def gicClearPending : State c :=
  s.modify irq fun q => { q with pending := q.pending &&& ~~~cm }
def gicTestPending : Bool :=
  decide ((s.irqState irq).pending &&& cm ≠ 0#c.ncpu)
def gicTestActive : Bool :=
  decide ((s.irqState irq).active &&& cm ≠ 0#c.ncpu)
def gicSetLevel : State c :=
  s.modify irq fun q => { q with level := cm }
def gicClearLevel : State c :=
  s.modify irq fun q => { q with level := q.level &&& ~~~cm }
def gicTestLevel : Bool :=
  decide ((s.irqState irq).level &&& cm ≠ 0#c.ncpu)
def gicSetModel (b : Bool) : State c :=
  s.modify irq fun q => { q with model := b }
def gicSetTrigger (b : Bool) : State c :=
  s.modify irq fun q => { q with trigger := b }

def gicGetPriority (irq cpu : Nat) : Nat :=
  if irq < 32 then s.priority1 irq cpu else s.priority2 (irq - 32)

def gicTarget : BitVec c.ncpu :=
  if c.nvic then 1#c.ncpu else s.irqTarget irq

end

/-! ## The interrupt decision -/

/-- One round of the search loop of `gic_update`; the pair is the best priority
and the interrupt that has it. -/
def searchBest (cpu : Nat) (best : Nat × Nat) (irq : Nat) : Nat × Nat :=
  if gicTestEnabled s irq (cpuMask c cpu) && gicTestPending s irq (cpuMask c cpu) then
    if gicGetPriority s irq cpu < best.1 then (gicGetPriority s irq cpu, irq) else best
  else best

def findBest (cpu : Nat) : Nat × Nat :=
  (List.range c.nirq).foldl (searchBest s cpu) (0x100, 1023)

def setParent (cpu : Nat) (level : Bool) : State c :=
  { s with parentIrq := set s.parentIrq cpu level }

end

/-- The CPU loop of `gic_update` for the next `n` CPUs from `cpu` on. A disabled
distributor or CPU interface ends the whole loop. -/
def gicUpdateFrom : Nat → Nat → State c → State c
  | 0, _, s => s
  | n + 1, cpu, s =>
    let s := { s with currentPending := set s.currentPending cpu 1023 }
    if !s.enabled || !s.cpuEnabled cpu then setParent s cpu false
    else
      let best := findBest s cpu
      if best.1 ≤ s.priorityMask cpu then
        let s := { s with currentPending := set s.currentPending cpu best.2 }
        gicUpdateFrom n (cpu + 1) (setParent s cpu (decide (best.1 < s.runningPriority cpu)))
      else gicUpdateFrom n (cpu + 1) (setParent s cpu false)

variable (s : State c)

def gicUpdate : State c := gicUpdateFrom c.numCpu 0 s

def gicSetPendingPrivate (cpu irq : Nat) : Except Fault (State c) :=
  if irq < c.nirq then
    if gicTestPending s irq (cpuMask c cpu) then .ok s
    else .ok (gicUpdate (gicSetPending s irq (cpuMask c cpu)))
  else .error (.outOfBounds "irq_state" irq)

/-- `gic_set_irq` on external input `irq`. -/
def gicSetIrq (irq : Nat) (level : Int) : Except Fault (State c) :=
  let irq := irq + 32
  if irq < c.nirq then
    if level = (gicTestLevel s irq (allCpuMask c)).toNat then .ok s
    else if level ≠ 0 then
      let s := gicSetLevel s irq (allCpuMask c)
      if (s.irqState irq).trigger || gicTestEnabled s irq (allCpuMask c) then
        .ok (gicUpdate (gicSetPending s irq (gicTarget s irq)))
      else .ok (gicUpdate s)
    else .ok (gicUpdate (gicClearLevel s irq (allCpuMask c)))
  else .error (.outOfBounds "irq_state" irq)

/-! ## Acknowledge and completion -/

def gicSetRunningIrq (cpu irq : Nat) : State c :=
  let s := { s with runningIrq := set s.runningIrq cpu irq }
  let priority := if irq = 1023 then 0x100 else gicGetPriority s irq cpu
  gicUpdate { s with runningPriority := set s.runningPriority cpu priority }

/-- The entry `last_active[irq][cpu]` replaced. -/
def setLastActive (irq cpu value : Nat) : State c :=
  { s with lastActive := set s.lastActive irq (set (s.lastActive irq) cpu value) }

def gicAcknowledgeIrq (cpu : Nat) : Nat × State c :=
  let newIrq := s.currentPending cpu
  if newIrq = 1023 ∨ gicGetPriority s newIrq cpu ≥ s.runningPriority cpu then (1023, s)
  else
    let s := setLastActive s newIrq cpu (s.runningIrq cpu)
    let mask := if (s.irqState newIrq).model then allCpuMask c else cpuMask c cpu
    (newIrq, gicSetRunningIrq (gicClearPending s newIrq mask) cpu newIrq)

/-- The search loop of `gic_complete_irq`: the entry whose successor is `irq`,
or `none` when the end of the list comes first. A loop that takes more rounds
than there are interrupts has come back to an entry and goes on for ever. -/
def findActive (next : Nat → Nat) (irq : Nat) : Nat → Nat → Except Fault (Option Nat)
  | 0, _ => .error .endlessLoop
  | rounds + 1, tmp =>
    if next tmp = 1023 then .ok none
    else if next tmp = irq then .ok (some tmp)
    else findActive next irq rounds (next tmp)

/-- The list of active interrupts without `irq`, which the search found behind
the given entry. -/
def unlink (cpu irq : Nat) : Option Nat → State c
  | some tmp => setLastActive s tmp cpu (s.lastActive irq cpu)
  | none => s

/-- The first half of `gic_complete_irq`: a level-triggered interrupt that is
still raised becomes pending again. The flag asks for an update. -/
def repend (cpu irq : Nat) : State c × Bool :=
  let cm := cpuMask c cpu
  if irq ≠ 1023 then
    if !(s.irqState irq).trigger && gicTestEnabled s irq cm && gicTestLevel s irq cm &&
        decide (gicTarget s irq &&& cm ≠ 0#c.ncpu) then
      (gicSetPending s irq cm, true)
    else (s, false)
  else (s, false)

def gicCompleteIrq (cpu irq : Nat) : Except Fault (State c) :=
  if s.runningIrq cpu = 1023 then .ok s
  else if irq ≠ 1023 ∧ ¬ irq < c.nirq then .error (.outOfBounds "irq_state" irq)
  else
    let (s, update) := repend s cpu irq
    if irq ≠ s.runningIrq cpu then do
      let found ← findActive (fun i => s.lastActive i cpu) irq (c.nirq + 1) (s.runningIrq cpu)
      let s := unlink s cpu irq found
      .ok (if update then gicUpdate s else s)
    else .ok (gicSetRunningIrq s cpu (s.lastActive (s.runningIrq cpu) cpu))

end

end QemuStm32.Gic
