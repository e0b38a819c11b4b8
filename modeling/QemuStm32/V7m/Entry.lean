import QemuStm32.V7m.Machine

/-!
# The state at the entry to a handler

What the architecture asks of the entry to an exception, and the one part of it that
`do_interrupt_v7m` leaves out: the IT bits are cleared in `uncached_cpsr`, where they are not kept.
-/

namespace QemuStm32.V7m

open BitVec Nvic Runs

/-- The architectural state after the entry from `m` to an exception. -/
structure HandlerEntry (host : Host) (m m' : Machine) : Prop where
  mainStack : m'.cpu.currentSp = false
  unconditional : xpsrRead m'.cpu &&& cpsrIt = 0#32
  lrStack : (m'.cpu.regs 14).getLsbD 2 = m.cpu.currentSp
  lrMode : (m'.cpu.regs 14).getLsbD 3 = decide (m.cpu.exception = 0)
  lrOther : m'.cpu.regs 14 ||| 0xc#32 = 0xfffffffd#32
  acknowledged : armv7mNvicAcknowledgeIrq m.nvic = .ok (m'.cpu.exception, m'.nvic)
  pc : m'.cpu.regs 15 = ldlPhys host m'.mem
    (m'.nvic.vecbase + BitVec.ofNat 32 (m'.cpu.exception * 4)) &&& ~~~1#32
  thumb : m'.cpu.thumb = (ldlPhys host m'.mem
    (m'.nvic.vecbase + BitVec.ofNat 32 (m'.cpu.exception * 4))).getLsbD 0

/-- The IT bits of the xPSR are those of `condexec_bits`. -/
theorem xpsrRead_it {c : Cpu} (h : c.exception < 512) {j : Nat} (hj : j < 8) :
    (xpsrRead c).getLsbD (if j < 2 then j + 25 else j + 8) = c.condexecBits.getLsbD j := by
  have number {i : Nat} (hi : 9 ≤ i) : (BitVec.ofNat 32 c.exception).getLsbD i = false := by
    have wide : 2 ^ 9 ≤ 2 ^ i := Nat.pow_le_pow_right (by decide) hi
    rw [getLsbD_ofNat, Nat.testBit_lt_two_pow (h.trans_le wide), Bool.and_false]
  simp only [xpsrRead, getLsbD_or, getLsbD_and, getLsbD_shiftLeft, getLsbD_ushiftRight, bit_getLsbD]
  rw [number (by split <;> omega)]
  interval_cases j <;> simp

theorem xpsrRead_it_eq_zero {c : Cpu} (h : c.exception < 512) :
    xpsrRead c &&& cpsrIt = 0#32 ↔ c.condexecBits &&& 0xff#32 = 0#32 := by
  constructor
  · intro clear
    refine eq_of_getLsbD_eq fun j _ => ?_
    by_cases hj : j < 8
    · have at_j := congrArg (·.getLsbD (if j < 2 then j + 25 else j + 8)) clear
      simp only [getLsbD_and, xpsrRead_it h hj] at at_j ⊢
      interval_cases j <;> simpa [cpsrIt, cpsrIt01, cpsrIt27] using at_j
    · have high : (0xff#32).getLsbD j = false :=
        Nat.testBit_lt_two_pow (Nat.pow_le_pow_right (n := 2) (by decide) (not_lt.mp hj))
      rw [getLsbD_and, high, Bool.and_false, getLsbD_zero]
  · intro clear
    have field : ∀ i < 32, cpsrIt.getLsbD i = true →
        ∃ j < 8, i = if j < 2 then j + 25 else j + 8 := by decide +kernel
    refine eq_of_getLsbD_eq fun i hi => ?_
    cases it : cpsrIt.getLsbD i with
    | false => rw [getLsbD_and, it, Bool.and_false, getLsbD_zero]
    | true =>
      obtain ⟨j, hj, rfl⟩ := field i hi it
      have at_j := congrArg (·.getLsbD j) clear
      rw [getLsbD_and, it, xpsrRead_it h hj]
      interval_cases j <;> simpa using at_j

/-- What the entry does to the CPU, whatever becomes of the frame. -/
theorem startHandler_cpu (host : Host) (m : Machine) (xpsr lr : BitVec 32) :
    (startHandler host (pushFrame m xpsr) lr).cpu.currentSp = false ∧
      (startHandler host (pushFrame m xpsr) lr).cpu.condexecBits = m.cpu.condexecBits := by
  have pushed : (pushFrame m xpsr).cpu.condexecBits = m.cpu.condexecBits := by
    unfold pushFrame
    rw [alignStack_eq]
    rfl
  refine ⟨switchV7mSp_currentSp _ false, Eq.trans ?_ pushed⟩
  unfold startHandler switchV7mSp
  split <;> rfl

/-- PC and the Thumb bit are those of the vector. -/
theorem startHandler_vector (host : Host) (m : Machine) (lr : BitVec 32) :
    let m' := startHandler host m lr
    let addr := ldlPhys host m'.mem (m'.nvic.vecbase + BitVec.ofNat 32 (m'.cpu.exception * 4))
    m'.cpu.regs 15 = addr &&& ~~~1#32 ∧ m'.cpu.thumb = addr.getLsbD 0 := by
  intro m' addr
  refine ⟨rfl, ?_⟩
  rw [Bool.eq_iff_iff, ← Bits.and_bit_ne_zero addr (show 0 < 32 by decide)]
  exact decide_eq_true_iff

/-- Taking an interrupt leaves the architectural state exactly if no IT block was interrupted. -/
theorem entry_architectural_iff (host : Host) {m m' : Machine} (sound : m.Sound)
    (taken : doInterruptV7m host .irq m = .ok m') :
    HandlerEntry host m m' ↔ m.cpu.condexecBits &&& 0xff#32 = 0#32 := by
  have ack := taken_acknowledged taken
  have number := (doInterruptV7m_sound sound taken).exception
  obtain ⟨⟨exception, nvic⟩, -, h⟩ := bind_ok_iff.mp taken
  obtain rfl := Except.ok.inj h
  obtain ⟨mainStack, condexec⟩ := startHandler_cpu host
    { m with cpu := { m.cpu with exception := exception }, nvic := nvic } (xpsrRead m.cpu)
    (excReturn m.cpu)
  obtain ⟨pc, thumb⟩ := startHandler_vector host
    (pushFrame { m with cpu := { m.cpu with exception := exception }, nvic := nvic }
      (xpsrRead m.cpu)) (excReturn m.cpu)
  have it := xpsrRead_it_eq_zero number
  rw [condexec] at it
  refine ⟨fun entry => it.mp entry.unconditional,
    fun clear => ⟨mainStack, it.mpr clear, ?_, ?_, ?_, ack, pc, thumb⟩⟩
  all_goals
    rw [(startHandler_spec _ _ _).1, excReturn]
    cases m.cpu.currentSp <;> by_cases thread : m.cpu.exception = 0 <;> simp [thread]

/-- PendSV is pended and taken. -/
def pendsvTaken (cpu : Cpu) : Except Fault (Machine × Machine) := do
  let m ← run (v7mStep quietHost 1) (.start cpu threadMem 0 0) pendPendsv
  let m' ← doInterruptV7m quietHost .irq m
  .ok (m, m')

theorem pendsv_architectural : ∃ m m', m.cpu.condexecBits &&& 0xff#32 = 0#32 ∧
    doInterruptV7m quietHost .irq m = .ok m' ∧ HandlerEntry quietHost m m' := by
  obtain ⟨⟨m, m'⟩, ran, clear⟩ := exists_of_observed (x := pendsvTaken threadCpu)
    (f := fun m => decide (m.1.cpu.condexecBits &&& 0xff#32 = 0#32)) (b := true) (by decide +kernel)
  obtain ⟨m₁, pended, ran⟩ := bind_ok_iff.mp ran
  obtain ⟨m₂, taken, ran⟩ := bind_ok_iff.mp ran
  cases ran
  have sound : m.Sound := run_sound (start_sound threadCpu threadMem 0 0) pended
  exact ⟨m, m', of_decide_eq_true clear, taken,
    (entry_architectural_iff quietHost sound taken).mpr (of_decide_eq_true clear)⟩

/-- A thread in the middle of an IT block. -/
def conditionalCpu : Cpu := { threadCpu with condexecBits := 0x08#32 }

theorem it_block_entered : ∃ m m', doInterruptV7m quietHost .irq m = .ok m' ∧
    xpsrRead m'.cpu &&& cpsrIt = 0x0800#32 ∧ ¬ HandlerEntry quietHost m m' := by
  obtain ⟨⟨m, m'⟩, ran, it⟩ := exists_of_observed (x := pendsvTaken conditionalCpu)
    (f := fun m => xpsrRead m.2.cpu &&& cpsrIt) (b := 0x0800#32) (by decide +kernel)
  obtain ⟨m₁, -, ran⟩ := bind_ok_iff.mp ran
  obtain ⟨m₂, taken, ran⟩ := bind_ok_iff.mp ran
  cases ran
  refine ⟨m, m', taken, it, fun entry => ?_⟩
  have clear := it.symm.trans entry.unconditional
  exact absurd clear (by decide)

end QemuStm32.V7m
