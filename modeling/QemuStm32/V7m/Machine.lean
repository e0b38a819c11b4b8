import QemuStm32.Nvic.Accesses
import QemuStm32.V7m.Returns

/-!
# Runs of the CPU and the NVIC

Between two exceptions the guest executes code, which may change registers and
memory as it likes but not the exception number, and the NVIC is accessed.

`return_restores_iff`: in every run, a handler that did its part comes back to
exactly the interrupted context if and only if the NVIC's list of active
interrupts leads to the one being completed or ends.
-/

namespace QemuStm32.V7m

open Gic Nvic Runs Words

inductive V7mEvent
  | access (e : NvicEvent) (h : e.ofCpu = false)
  | execute (code : Cpu → PhysMemory → Cpu × PhysMemory)
  | interrupt (exceptionIndex : Excp)

/-- What executed code leaves: it cannot write the exception number, nor move
the RAM. -/
def execute (m : Machine) (code : Cpu → PhysMemory → Cpu × PhysMemory) : Machine :=
  let (cpu, mem) := code m.cpu m.mem
  { m with
    cpu := { cpu with exception := m.cpu.exception }
    mem := { mem with ramBase := m.mem.ramBase, ramSize := m.mem.ramSize } }

def v7mStep (host : Host) (scale : Int) (m : Machine) : V7mEvent → Except Fault Machine
  | .access e _ => nvicStep scale m.nvic e >>= fun nvic => .ok { m with nvic := nvic }
  | .execute code => .ok (execute m code)
  | .interrupt index => doInterruptV7m host index m

/-- The machine out of reset, with any registers and memory. -/
def Machine.start (cpu : Cpu) (mem : PhysMemory) (cpuid : BitVec 32) (now : Nat) : Machine :=
  ⟨{ cpu with exception := 0 }, mem, .start cpuid now⟩

/-! ## What holds in every run -/

/-- The NVIC's records are sound, and the exception number fits its field. -/
structure Machine.Sound (m : Machine) : Prop where
  nvic : Nvic.Sound m.nvic.gic
  exception : m.cpu.exception < 512

theorem start_sound (cpu : Cpu) (mem : PhysMemory) (cpuid : BitVec 32) (now : Nat) :
    (Machine.start cpu mem cpuid now).Sound :=
  ⟨gicInit_sound, show 0 < 512 by decide⟩

/-- The vector number of an interrupt; 0 stands for thread mode. -/
def vector (irq : Nat) : Nat := if irq = 1023 then 0 else if irq ≥ 32 then irq - 16 else irq

theorem acknowledge_spec {s t : NvicState} {exception : Nat}
    (h : armv7mNvicAcknowledgeIrq s = .ok (exception, t)) :
    exception = vector (s.gic.currentPending 0) ∧ Taken s.gic 0 ∧
      t.gic = (gicAcknowledgeIrq s.gic 0).2 := by
  unfold armv7mNvicAcknowledgeIrq at h
  obtain ⟨_, e⟩ | ⟨taken, u, _, e⟩ := gicAcknowledgeIrq_cases s.gic 0 <;> rw [e] at h ⊢
  · cases h
  · dsimp only at h
    rw [if_neg taken.1] at h
    cases h
    exact ⟨by rw [vector, if_neg taken.1], taken, rfl⟩

variable {irq : Nat} {m m' : Machine} {host : Host} {scale : Int}

theorem vector_lt (h : irq = 1023 ∨ irq < armv7m.nirq) : vector irq < 512 := by
  have : armv7m.nirq = 96 := rfl
  unfold vector
  split
  · omega
  · split <;> omega

theorem popXpsr_exception (host : Host) (m : Machine) : (popXpsr host m).cpu.exception < 512 := by
  have field v : (v &&& 0x1ff#32).toNat < 512 := by
    exact Nat.and_lt_two_pow (n := 9) _ (by decide)
  unfold popXpsr
  dsimp only
  split <;> exact field _

theorem setPending_sound (h : m.Sound) (hm : setPending m irq = .ok m') : m'.Sound := by
  obtain ⟨nvic, hn, hm⟩ := bind_ok_iff.mp hm
  cases hm
  exact ⟨h.nvic.quiet (armv7mNvicSetPending_quiet hn), h.exception⟩

theorem completeIrq_sound {nvic : NvicState} (h : m.Sound) (hn : completeIrq m = .ok nvic) :
    Nvic.Sound nvic.gic := by
  unfold completeIrq at hn
  split at hn
  · obtain ⟨g, hg, hn⟩ := bind_ok_iff.mp hn
    cases hn
    exact gicCompleteIrq_sound h.nvic hg
  · cases hn
    exact h.nvic

theorem exitCpu_nvic (host : Host) (m : Machine) : (exitCpu host m).nvic = m.nvic := by
  unfold exitCpu popXpsr
  dsimp only
  split <;> rfl

theorem doV7mExceptionExit_sound (h : m.Sound) (hm : doV7mExceptionExit host m = .ok m') :
    m'.Sound := by
  obtain ⟨nvic, hn, hm⟩ := bind_ok_iff.mp hm
  cases hm
  refine ⟨?_, popXpsr_exception host _⟩
  rw [exitCpu_nvic]
  exact completeIrq_sound h hn

theorem pushFrame_keeps (m : Machine) (xpsr : BitVec 32) :
    (pushFrame m xpsr).nvic = m.nvic ∧ (pushFrame m xpsr).cpu.exception = m.cpu.exception := by
  unfold pushFrame
  rw [alignStack_eq]
  exact ⟨rfl, rfl⟩

/-- Taking an interrupt acknowledges it, whatever becomes of the frame. -/
theorem taken_acknowledged (h : doInterruptV7m host .irq m = .ok m') :
    armv7mNvicAcknowledgeIrq m.nvic = .ok (m'.cpu.exception, m'.nvic) := by
  obtain ⟨⟨exception, nvic⟩, ack, h⟩ := bind_ok_iff.mp h
  cases h
  obtain ⟨_, _, _, number, _, hnvic⟩ := startHandler_spec host
    (pushFrame { m with cpu := { m.cpu with exception := exception }, nvic := nvic }
      (xpsrRead m.cpu)) (excReturn m.cpu)
  rw [number, hnvic, (pushFrame_keeps _ _).1, (pushFrame_keeps _ _).2]
  exact ack

theorem doInterruptV7m_sound {index : Excp} (h : m.Sound)
    (hm : doInterruptV7m host index m = .ok m') : m'.Sound := by
  have skipped : (skipInsn m).Sound := ⟨h.nvic, h.exception⟩
  cases index with
  | swi => exact setPending_sound skipped hm
  | udef | prefetchAbort | dataAbort => exact setPending_sound h hm
  | bkpt =>
    unfold doInterruptV7m at hm
    dsimp only at hm
    split at hm
    · cases hm
      exact ⟨h.nvic, h.exception⟩
    · exact setPending_sound h hm
  | irq =>
    obtain ⟨number, _, after⟩ := acknowledge_spec (taken_acknowledged hm)
    refine ⟨?_, ?_⟩
    · rw [after]
      exact gicAcknowledgeIrq_sound h.nvic
    · rw [number]
      exact vector_lt (h.nvic.inRange.pending 0)
  | exceptionExit => exact doV7mExceptionExit_sound h hm
  | fiq | kernelTrap | strex => cases hm

theorem v7mStep_sound {e : V7mEvent} (h : m.Sound) (hm : v7mStep host scale m e = .ok m') :
    m'.Sound := by
  cases e with
  | access e access =>
    obtain ⟨nvic, hn, hm⟩ := bind_ok_iff.mp hm
    cases hm
    exact ⟨h.nvic.quiet (nvicStep_quiet access hn), h.exception⟩
  | execute code =>
    cases hm
    exact ⟨h.nvic, h.exception⟩
  | interrupt index => exact doInterruptV7m_sound h hm

theorem run_sound {events : List V7mEvent} (h : m.Sound)
    (hm : run (v7mStep host scale) m events = .ok m') : m'.Sound :=
  (always_of_keeps (fun _ _ _ h hm => v7mStep_sound h hm) events h).final hm

/-! ## The return -/

/-- The NVIC has nothing to complete, or its list of active interrupts leads to
the one being completed or ends. -/
def Completes (m : Machine) : Prop :=
  m.cpu.exception = 0 ∨ m.nvic.gic.runningIrq 0 = 1023 ∨
    internalIrq m.cpu.exception < armv7m.nirq ∧ LeadsTo m.nvic.gic 0 (internalIrq m.cpu.exception)

theorem completes_iff (h : m.Sound) : Completes m ↔ ∃ nvic, completeIrq m = .ok nvic := by
  unfold Completes completeIrq
  by_cases thread : m.cpu.exception = 0
  · rw [if_neg (not_not.mpr thread)]
    exact ⟨fun _ => ⟨_, rfl⟩, fun _ => .inl thread⟩
  rw [if_pos thread]
  have small : internalIrq m.cpu.exception ≠ 1023 := by
    have := h.exception
    unfold internalIrq
    split <;> omega
  have inner : (∃ nvic, armv7mNvicCompleteIrq m.nvic m.cpu.exception = .ok nvic) ↔
      ∃ g, gicCompleteIrq m.nvic.gic 0 (internalIrq m.cpu.exception) = .ok g := by
    constructor
    · rintro ⟨nvic, hn⟩
      obtain ⟨g, hg, _⟩ := bind_ok_iff.mp hn
      exact ⟨g, hg⟩
    · rintro ⟨g, hg⟩
      exact ⟨_, bind_ok_iff.mpr ⟨g, hg, rfl⟩⟩
  rw [inner]
  by_cases idle : m.nvic.gic.runningIrq 0 = 1023
  · exact ⟨fun _ => ⟨_, if_pos idle⟩, fun _ => .inr (.inl idle)⟩
  by_cases legal : internalIrq m.cpu.exception < armv7m.nirq
  · rw [gicCompleteIrq_returns_iff h.nvic.inRange idle legal]
    simp [thread, idle, legal]
  have fails : gicCompleteIrq m.nvic.gic 0 (internalIrq m.cpu.exception) =
      .error (.outOfBounds "irq_state" (internalIrq m.cpu.exception)) := by
    unfold gicCompleteIrq
    rw [if_neg idle, if_pos ⟨small, legal⟩]
  rw [fails]
  simp [thread, idle, legal]

/-- In every run from reset: an exception is taken at `m`, where its frame is in
RAM, and its handler returns at `m₂`, having restored what it must. The return
then brings back the context of `m` exactly when the NVIC's completion ends. -/
theorem return_restores_iff (host : Host) (scale : Int) (cpu : Cpu) (mem : PhysMemory)
    (cpuid : BitVec 32) (now : Nat) {before handler : List V7mEvent} {m m₁ m₂ : Machine}
    (reached : run (v7mStep host scale) (.start cpu mem cpuid now) before = .ok m)
    (room : EntryInRam m) (taken : doInterruptV7m host .irq m = .ok m₁)
    (handled : run (v7mStep host scale) m₁ handler = .ok m₂)
    (restored : Restored (frameBase m.cpu) m₁ m₂) :
    (∃ m₃, doV7mExceptionExit host m₂ = .ok m₃ ∧ context m₃.cpu = context m.cpu) ↔
      Completes m₂ := by
  have sound := run_sound (start_sound cpu mem cpuid now) reached
  have sound₂ := run_sound (doInterruptV7m_sound sound taken) handled
  rw [completes_iff sound₂]
  constructor
  · rintro ⟨m₃, exit, _⟩
    obtain ⟨nvic, hn, _⟩ := bind_ok_iff.mp exit
    exact ⟨nvic, hn⟩
  · rintro ⟨nvic, hn⟩
    refine ⟨_, bind_ok_iff.mpr ⟨nvic, hn, rfl⟩, ?_⟩
    have same : Restored (frameBase m.cpu) m₁ { m₂ with nvic := nvic } :=
      ⟨restored.saved, restored.pointers, restored.frame, restored.ramBase, restored.ramSize,
        restored.pc⟩
    exact exitCpu_restores host sound.exception room taken same

/-! ## Two handlers -/

def quietHost : Host := ⟨fun _ => 0#32, false, fun _ _ => 0#32, fun m => (0#32, m.mem.bytes)⟩

/-- A thread on the process stack, whose pointer is not aligned. -/
def threadCpu : Cpu where
  regs := fun i => if i = 13 then 0x20000804#32 else BitVec.ofNat 32 i.val
  uncachedCpsr := 0#32
  cf := true
  vf := 0#32
  nf := 0x80000000#32
  zf := 1#32
  qf := false
  thumb := true
  condexecBits := 0#32
  otherSp := 0x20000400#32
  currentSp := true
  exception := 0

def threadMem : PhysMemory := ⟨0x20000000, 0x1000, fun _ => 0#8, []⟩

def write (offset : Nat) (value : BitVec 32) : V7mEvent := .access (.writel offset value) rfl

/-- `bx lr`. -/
def bxLr : V7mEvent := .execute fun cpu mem => (cpu.setReg 15 (cpu.regs 14 &&& ~~~1#32), mem)

/-- PendSV at priority 0x80 and SysTick at 0x40; PendSV is pended. -/
def pendPendsv : List V7mEvent := [write 0xd20 0x40800000#32, write 0xd04 0x10000000#32]

def pendSystick : V7mEvent := write 0xd04 0x04000000#32

/-- A PendSV handler that SysTick interrupts. -/
def interruptedHandler : List V7mEvent :=
  [pendSystick, .interrupt .irq, bxLr, .interrupt .exceptionExit, bxLr]

/-- The same, but the SysTick handler gives SysTick priority 0x20 and pends it,
so that SysTick interrupts itself. -/
def retakingHandler : List V7mEvent :=
  [pendSystick, .interrupt .irq, write 0xd20 0x20800000#32, pendSystick, .interrupt .irq,
    bxLr, .interrupt .exceptionExit, bxLr, .interrupt .exceptionExit, bxLr]

/-- The machine before PendSV is taken, after, and where its handler returns. -/
def handlePendsv (handler : List V7mEvent) : Except Fault (Machine × Machine × Machine) :=
  run (v7mStep quietHost 1) (.start threadCpu threadMem 0 0) pendPendsv >>= fun m =>
    doInterruptV7m quietHost .irq m >>= fun m₁ =>
      run (v7mStep quietHost 1) m₁ handler >>= fun m₂ => .ok (m, m₁, m₂)

theorem handlePendsv_ok {handler : List V7mEvent} {r : Machine × Machine × Machine}
    (h : handlePendsv handler = .ok r) :
    run (v7mStep quietHost 1) (.start threadCpu threadMem 0 0) pendPendsv = .ok r.1 ∧
      doInterruptV7m quietHost .irq r.1 = .ok r.2.1 ∧
      run (v7mStep quietHost 1) r.2.1 handler = .ok r.2.2 := by
  obtain ⟨m, reached, h⟩ := bind_ok_iff.mp h
  obtain ⟨m₁, taken, h⟩ := bind_ok_iff.mp h
  obtain ⟨m₂, handled, h⟩ := bind_ok_iff.mp h
  cases h
  exact ⟨reached, taken, handled⟩

theorem return_restores_interrupted : ∃ m m₁ m₂ m₃,
    run (v7mStep quietHost 1) (.start threadCpu threadMem 0 0) pendPendsv = .ok m ∧
    EntryInRam m ∧ doInterruptV7m quietHost .irq m = .ok m₁ ∧
    run (v7mStep quietHost 1) m₁ interruptedHandler = .ok m₂ ∧
    Restored (frameBase m.cpu) m₁ m₂ ∧
    doV7mExceptionExit quietHost m₂ = .ok m₃ ∧ context m₃.cpu = context m.cpu := by
  have observed : (handlePendsv interruptedHandler).toOption.map (fun r =>
      (decide (EntryInRam r.1), decide (Restored (frameBase r.1.cpu) r.2.1 r.2.2),
        r.2.2.cpu.exception, r.2.2.nvic.gic.runningIrq 0)) = some (true, true, 14, 14) := by
    decide +kernel
  obtain ⟨⟨m, m₁, m₂⟩, h, e⟩ := exists_of_observed observed
  simp only [Prod.mk.injEq, decide_eq_true_eq] at e
  obtain ⟨room, restored, number, running⟩ := e
  obtain ⟨reached, taken, handled⟩ := handlePendsv_ok h
  have completes : Completes m₂ := by
    refine .inr (.inr ?_)
    rw [number]
    exact ⟨by decide, 0, .inl running⟩
  obtain ⟨m₃, exit, same⟩ := (return_restores_iff quietHost 1 threadCpu threadMem 0 0 reached room
    taken handled restored).mpr completes
  exact ⟨m, m₁, m₂, m₃, reached, room, taken, handled, restored, exit, same⟩

/-- SysTick is its own successor after it was taken twice, and the completion of
PendSV looks for it for ever. -/
theorem retaking_handler_never_returns :
    ¬ ∀ (host : Host) (scale : Int) (cpu : Cpu) (mem : PhysMemory) (cpuid : BitVec 32) (now : Nat)
      (before handler : List V7mEvent) (m m₁ m₂ : Machine),
      run (v7mStep host scale) (.start cpu mem cpuid now) before = .ok m → EntryInRam m →
      doInterruptV7m host .irq m = .ok m₁ → run (v7mStep host scale) m₁ handler = .ok m₂ →
      Restored (frameBase m.cpu) m₁ m₂ →
      ∃ m₃, doV7mExceptionExit host m₂ = .ok m₃ ∧ context m₃.cpu = context m.cpu := by
  intro h
  have observed : (handlePendsv retakingHandler).toOption.map (fun r =>
      (decide (EntryInRam r.1), decide (Restored (frameBase r.1.cpu) r.2.1 r.2.2),
        (doV7mExceptionExit quietHost r.2.2).toOption.isSome)) = some (true, true, false) := by
    decide +kernel
  obtain ⟨⟨m, m₁, m₂⟩, hr, e⟩ := exists_of_observed observed
  simp only [Prod.mk.injEq, decide_eq_true_eq] at e
  obtain ⟨room, restored, fails⟩ := e
  obtain ⟨reached, taken, handled⟩ := handlePendsv_ok hr
  obtain ⟨m₃, exit, _⟩ := h quietHost 1 threadCpu threadMem 0 0 _ _ m m₁ m₂ reached room taken
    handled restored
  rw [exit] at fails
  cases fails

end QemuStm32.V7m
