import QemuStm32.V7m.Machine

/-!
# The two forms of the nesting stack

The CPU keeps the exceptions it interrupted in the stacked xPSR words, the NVIC
in its list of active interrupts. A run carries along where the live frames are.

`inStep_along_iff`: as long as the code leaves the stacked frames alone, the two
agree throughout a run exactly when no interrupt is taken that is still active,
and no handler returns from exception 0.
-/

namespace QemuStm32.V7m

open BitVec Gic Linked List Nvic Runs Words

/-- The machine and the bases of the frames that were pushed and not yet
popped, the innermost first. -/
structure Nested where
  machine : Machine
  frames : List Nat

def framesAfter (s : Nested) : V7mEvent → List Nat
  | .interrupt .irq => frameBase s.machine.cpu :: s.frames
  | .interrupt .exceptionExit => s.frames.tail
  | _ => s.frames

def nestedStep (host : Host) (scale : Int) (s : Nested) (e : V7mEvent) : Except Fault Nested :=
  v7mStep host scale s.machine e >>= fun m => .ok ⟨m, framesAfter s e⟩

/-- The exception number in the stacked xPSR of the frame at `base`. -/
def stackedException (mem : PhysMemory) (base : Nat) : Nat :=
  (frameWord mem base 7 &&& 0x1ff#32).toNat

/-- The exception number is the vector of the running interrupt, and the stacked
ones are the vectors of the interrupts it was taken over, down to thread mode. -/
def InStep (s : Nested) : Prop :=
  ∃ l, Chain (s.machine.nvic.gic.next 0) 1023 (s.machine.nvic.gic.runningIrq 0) l ∧
    s.machine.cpu.exception = vector (s.machine.nvic.gic.runningIrq 0) ∧
    s.frames.map (stackedException s.machine.mem) = (l ++ [1023]).tail.map vector

/-- The frames hold in `m'` what they hold in `m`. -/
def Intact (frames : List Nat) (m m' : Machine) : Prop :=
  ∀ base ∈ frames, Agree m'.mem.bytes m.mem.bytes base (base + 32)

/-- What is asked of the code: an entry finds room for its frame, apart from the
live ones; a return finds the innermost one; nothing else writes to them. -/
def Behaves (host : Host) (scale : Int) (s : Nested) : V7mEvent → Prop
  | .interrupt .irq => EntryInRam s.machine ∧ ∀ base ∈ s.frames,
      base + 32 ≤ frameBase s.machine.cpu ∨ frameBase s.machine.cpu + 32 ≤ base
  | .interrupt .exceptionExit => s.frames.head? = some (returnBase s.machine)
  | e => ∀ m, v7mStep host scale s.machine e = .ok m → Intact s.frames s.machine m

/-- An interrupt is taken only when it is not active, and a handler returns only
from an exception other than 0. -/
def Nests (s : Nested) : V7mEvent → Prop
  | .interrupt .irq => Taken s.machine.nvic.gic 0 →
      s.machine.nvic.gic.currentPending 0 ∉ activeIrqs s.machine.nvic.gic 0
  | .interrupt .exceptionExit => s.machine.cpu.exception ≠ 0
  | _ => True

/-- The machine is sound and the frames are in RAM. -/
structure Nested.Sound (s : Nested) : Prop where
  machine : s.machine.Sound
  frames : ∀ base ∈ s.frames, FrameInRam s.machine.mem base

/-! ## Numbers -/

theorem stackedXpsr_exception {c : Cpu} (h : c.exception < 512) :
    (stackedXpsr c &&& 0x1ff#32).toNat = c.exception := by
  have low : stackedXpsr c &&& 0x1ff#32 = BitVec.ofNat 32 c.exception := by
    apply eq_of_getLsbD_eq
    intro i hi
    rw [getLsbD_and]
    by_cases field : i < 9
    · have aligned : (if unaligned c then 0x200#32 else 0#32).getLsbD i = false := by
        cases unaligned c <;> interval_cases i <;> rfl
      rw [stackedXpsr, getLsbD_or, aligned]
      simp only [xpsrRead, getLsbD_or, getLsbD_and, getLsbD_shiftLeft, getLsbD_ushiftRight]
      interval_cases i <;> simp
    · have high := Nat.le_of_not_lt field
      rw [ofNat_getLsbD (by decide) high, Bool.and_false, ofNat_getLsbD h high]
  rw [low, toNat_ofNat]
  omega

variable {irq : Nat} {m m' : Machine} {s t : Nested} {host : Host} {scale : Int} {e : V7mEvent}

theorem internalIrq_vector (exist : OnNvic irq) (active : irq ≠ 1023) :
    internalIrq (vector irq) = irq := by
  unfold internalIrq vector OnNvic at *
  rw [if_neg active]
  split <;> split <;> omega

theorem stackedException_agree {mem mem' : PhysMemory} {base : Nat}
    (h : Agree mem'.bytes mem.bytes base (base + 32)) :
    stackedException mem' base = stackedException mem base := by
  unfold stackedException frameWord
  rw [h.loadWord (by omega) (by omega)]

theorem map_stackedException {frames : List Nat} (h : Intact frames m m') :
    frames.map (stackedException m'.mem) = frames.map (stackedException m.mem) :=
  map_congr_left fun base hb => stackedException_agree (h base hb)

/-! ## Steps that leave the stack alone -/

/-- The exception number, the list of active interrupts and the frames stay. -/
structure Still (s : Nested) (m : Machine) : Prop where
  exception : m.cpu.exception = s.machine.cpu.exception
  quiet : Quiet s.machine.nvic.gic m.nvic.gic
  intact : Intact s.frames s.machine m
  ramBase : m.mem.ramBase = s.machine.mem.ramBase
  ramSize : m.mem.ramSize = s.machine.mem.ramSize

theorem Still.inStep (h : Still s m) (good : InStep s) : InStep ⟨m, s.frames⟩ := by
  obtain ⟨l, chain, number, stacked⟩ := good
  refine ⟨l, ?_, ?_, ?_⟩
  · unfold State.next
    rw [h.quiet.lastActive, h.quiet.runningIrq]
    exact chain
  · rw [h.exception, h.quiet.runningIrq]
    exact number
  · exact (map_stackedException h.intact).trans stacked

theorem Still.sound (h : Still s m) (sound : s.Sound) : Nested.Sound ⟨m, s.frames⟩ := by
  refine ⟨⟨sound.machine.nvic.quiet h.quiet, ?_⟩, fun base hb => ?_⟩
  · rw [h.exception]
    exact sound.machine.exception
  · obtain ⟨low, high, wrap⟩ := sound.frames base hb
    exact ⟨by rw [h.ramBase]; exact low, by rw [h.ramBase, h.ramSize]; exact high, wrap⟩

/-- Neither an entry nor a return. -/
def Ordinary : V7mEvent → Prop
  | .interrupt .irq | .interrupt .exceptionExit => False
  | _ => True

theorem still_setPending (h : Still s m) (hm : setPending m irq = .ok m') : Still s m' := by
  obtain ⟨nvic, hn, hm⟩ := bind_ok_iff.mp hm
  cases hm
  exact ⟨h.exception, h.quiet.trans (armv7mNvicSetPending_quiet hn), h.intact, h.ramBase, h.ramSize⟩

theorem still_of_step (ordinary : Ordinary e) (behaves : Behaves host scale s e)
    (h : v7mStep host scale s.machine e = .ok m) : Still s m := by
  have same : Still s s.machine := ⟨rfl, .refl, fun _ _ _ _ _ => rfl, rfl, rfl⟩
  cases e with
  | access e access =>
    obtain ⟨nvic, hn, hm⟩ := bind_ok_iff.mp h
    cases hm
    exact ⟨rfl, nvicStep_quiet access hn, fun _ _ _ _ _ => rfl, rfl, rfl⟩
  | execute code =>
    have intact := behaves m h
    cases h
    exact ⟨rfl, .refl, intact, rfl, rfl⟩
  | interrupt index =>
    cases index with
    | swi =>
      have skipped : Still s (skipInsn s.machine) := ⟨rfl, .refl, same.intact, rfl, rfl⟩
      exact still_setPending skipped h
    | udef | prefetchAbort | dataAbort => exact still_setPending same h
    | bkpt =>
      have intact := behaves m h
      unfold v7mStep doInterruptV7m at h
      dsimp only at h
      split at h
      · cases h
        exact ⟨rfl, .refl, intact, rfl, rfl⟩
      · exact still_setPending same h
    | irq | exceptionExit => cases ordinary
    | fiq | kernelTrap | strex => cases h

/-! ## Entries -/

/-- The frame that an entry pushes records the exception it interrupts. -/
theorem Entered.stackedException (h : Entered m m') (number : m.cpu.exception < 512) :
    stackedException m'.mem (frameBase m.cpu) = m.cpu.exception := by
  unfold V7m.stackedException
  rw [h.xpsr, stackedXpsr_exception number]

theorem Entered.intact (h : Entered m m') {frames : List Nat}
    (apart : ∀ base ∈ frames, base + 32 ≤ frameBase m.cpu ∨ frameBase m.cpu + 32 ≤ base) :
    Intact frames m m' := by
  intro base hb a low high
  have := apart base hb
  exact h.bytes a (by omega)

theorem take_sound (sound : s.Sound) (room : EntryInRam s.machine)
    (h : doInterruptV7m host .irq s.machine = .ok m) :
    Nested.Sound ⟨m, frameBase s.machine.cpu :: s.frames⟩ := by
  have entry := entered host room h
  refine ⟨doInterruptV7m_sound sound.machine h, fun base hb => ?_⟩
  have inRam : FrameInRam s.machine.mem base := by
    obtain rfl | hb := mem_cons.mp hb
    · obtain ⟨wrap, low, high⟩ := room
      refine ⟨?_, ?_, ?_⟩ <;> rw [frameBase_eq ⟨wrap, low, high⟩] <;> omega
    · exact sound.frames base hb
  obtain ⟨low, high, wrap⟩ := inRam
  exact ⟨by rw [entry.ramBase]; exact low, by rw [entry.ramBase, entry.ramSize]; exact high, wrap⟩

/-- An entry keeps the two stacks in step exactly when the interrupt it takes is
not active. -/
theorem take_inStep_iff {host : Host} {s : Nested} {m : Machine} (sound : s.Sound)
    (room : EntryInRam s.machine) (apart : ∀ base ∈ s.frames,
      base + 32 ≤ frameBase s.machine.cpu ∨ frameBase s.machine.cpu + 32 ≤ base)
    (good : InStep s) (h : doInterruptV7m host .irq s.machine = .ok m) :
    InStep ⟨m, frameBase s.machine.cpu :: s.frames⟩ ↔
      s.machine.nvic.gic.currentPending 0 ∉ activeIrqs s.machine.nvic.gic 0 := by
  have entry := entered host room h
  obtain ⟨number, taken, after⟩ := acknowledge_spec entry.acknowledged
  obtain ⟨next, running⟩ := gicAcknowledgeIrq_pushes taken
  rw [← after] at next running
  obtain ⟨l, chain, exception, stacked⟩ := good
  have inRange := sound.machine.nvic.inRange
  have lt : ∀ i ∈ l, i < armv7m.nirq := by
    have links : ∀ i, i < armv7m.nirq → _ := fun i _ => inRange.links 0 i
    exact chain.all (inRange.running 0) links
  rw [activeIrqs_eq chain lt]
  unfold InStep
  rw [next, running]
  constructor
  · rintro ⟨l', chain', _⟩ active
    exact chain.push_endless active chain'
  · intro fresh
    refine ⟨_ :: l, chain.push taken.1 fresh, number, ?_⟩
    rw [map_cons, entry.stackedException sound.machine.exception,
      map_stackedException (entry.intact apart), stacked, exception, List.cons_append,
      tail_cons, ← map_cons, ← chain.starts]

/-! ## Returns -/

/-- In step, the running interrupt is the one the exception number stands for. -/
theorem InStep.running (sound : s.Sound) (good : InStep s) (handler : s.machine.cpu.exception ≠ 0) :
    s.machine.nvic.gic.runningIrq 0 ≠ 1023 ∧
      internalIrq s.machine.cpu.exception = s.machine.nvic.gic.runningIrq 0 := by
  obtain ⟨_, _, number, _⟩ := good
  have active : s.machine.nvic.gic.runningIrq 0 ≠ 1023 := by
    intro idle
    rw [number, idle] at handler
    exact handler rfl
  refine ⟨active, ?_⟩
  rw [number]
  exact internalIrq_vector sound.machine.nvic.running active

/-- In step, the completion of an exception other than 0 takes the running
interrupt off the list. -/
theorem InStep.completed (sound : s.Sound) (good : InStep s)
    (handler : s.machine.cpu.exception ≠ 0) :
    ∃ nvic, completeIrq s.machine = .ok nvic ∧
      nvic.gic.next 0 = s.machine.nvic.gic.next 0 ∧
      nvic.gic.runningIrq 0 =
        s.machine.nvic.gic.next 0 (s.machine.nvic.gic.runningIrq 0) := by
  obtain ⟨active, same⟩ := good.running sound handler
  obtain ⟨l, chain, _, _⟩ := good
  have inRange := sound.machine.nvic.inRange
  have lt : ∀ i ∈ l, i < armv7m.nirq := chain.all (inRange.running 0) fun i _ => inRange.links 0 i
  obtain ⟨g, hg, next, running⟩ := gicCompleteIrq_running ⟨l, chain, lt⟩ active
    ((inRange.running 0).resolve_left active)
  refine ⟨s.machine.nvic.withGic g, ?_, next, running⟩
  unfold completeIrq
  rw [if_pos handler]
  refine bind_ok_iff.mpr ⟨g, ?_, rfl⟩
  rw [same]
  exact hg

theorem return_sound (sound : s.Sound) (innermost : s.frames.head? = some (returnBase s.machine))
    (h : doV7mExceptionExit host s.machine = .ok m) : Nested.Sound ⟨m, s.frames.tail⟩ := by
  have inRam := sound.frames _ (mem_of_head? innermost)
  refine ⟨doV7mExceptionExit_sound sound.machine h, fun base hb => ?_⟩
  obtain ⟨nvic, _, h⟩ := bind_ok_iff.mp h
  cases h
  have exit := exited host (m := { s.machine with nvic := nvic }) inRam
  rw [exit.mem]
  exact sound.frames base (mem_of_mem_tail hb)

/-- A return keeps the two stacks in step exactly when it is not from exception 0,
which the NVIC is not told about. -/
theorem return_inStep_iff (sound : s.Sound)
    (innermost : s.frames.head? = some (returnBase s.machine)) (good : InStep s) :
    (∀ m, doV7mExceptionExit host s.machine = .ok m → InStep ⟨m, s.frames.tail⟩) ↔
      s.machine.cpu.exception ≠ 0 := by
  have inRam := sound.frames _ (mem_of_head? innermost)
  have exit nvic := exited host (m := { s.machine with nvic := nvic }) inRam
  obtain ⟨frames, hframes⟩ : ∃ frames, s.frames = returnBase s.machine :: frames := by
    cases hf : s.frames with
    | nil => rw [hf] at innermost; cases innermost
    | cons base frames =>
      rw [hf] at innermost
      exact ⟨frames, by rw [Option.some.inj innermost]⟩
  constructor
  · -- the NVIC's list stays as long as it was, with one frame less
    intro all thread
    obtain ⟨l, chain, _, stacked⟩ := good
    have step : doV7mExceptionExit host s.machine =
        .ok (exitCpu host { s.machine with nvic := s.machine.nvic }) := by
      refine bind_ok_iff.mpr ⟨s.machine.nvic, ?_, rfl⟩
      unfold completeIrq
      rw [if_neg (not_not.mpr thread)]
    obtain ⟨l', chain', _, stacked'⟩ := all _ step
    rw [exitCpu_nvic] at chain'
    obtain rfl := chain.unique chain'
    have long := congrArg length stacked
    have short := congrArg length stacked'
    rw [hframes] at long short
    simp only [length_map, length_cons, tail_cons] at long short
    omega
  · intro handler m hm
    obtain ⟨active, _⟩ := good.running sound handler
    obtain ⟨nvic, hn, next, running⟩ := good.completed sound handler
    obtain ⟨nvic', hn', hm⟩ := bind_ok_iff.mp hm
    obtain rfl : nvic = nvic' := Except.ok.inj (hn.symm.trans hn')
    obtain rfl := Except.ok.inj hm
    obtain ⟨l, chain, number, stacked⟩ := good
    obtain ⟨rest, rfl, behind⟩ := chain.tail active
    rw [hframes, List.cons_append, behind.starts] at stacked
    obtain ⟨first, others⟩ := cons.inj stacked
    refine ⟨rest, ?_, ?_, ?_⟩
    · rw [exitCpu_nvic]
      rw [next, running]
      exact behind
    · rw [exitCpu_nvic, (exit nvic).exception]
      rw [running]
      exact first
    · rw [(exit nvic).mem, hframes]
      exact others

/-! ## Runs -/

/-- Entries, returns and the rest. -/
theorem event_cases (e : V7mEvent) :
    e = .interrupt .irq ∨ e = .interrupt .exceptionExit ∨ Ordinary e := by
  cases e with
  | access e h | execute code => exact .inr (.inr trivial)
  | interrupt index => cases index <;> simp [Ordinary]

theorem Ordinary.frames (h : Ordinary e) (s : Nested) : framesAfter s e = s.frames := by
  cases e with
  | access e h | execute code => rfl
  | interrupt index => cases index <;> first | rfl | cases h

theorem Ordinary.nests (h : Ordinary e) (s : Nested) : Nests s e := by
  cases e with
  | access e h | execute code => exact trivial
  | interrupt index => cases index <;> first | exact trivial | cases h

theorem nestedStep_sound (sound : s.Sound) (behaves : Behaves host scale s e)
    (h : nestedStep host scale s e = .ok t) : t.Sound := by
  obtain ⟨m, hm, ht⟩ := bind_ok_iff.mp h
  cases ht
  obtain rfl | rfl | ordinary := event_cases e
  · exact take_sound sound behaves.1 hm
  · exact return_sound sound behaves hm
  · rw [ordinary.frames]
    exact (still_of_step ordinary behaves hm).sound sound

/-- An interrupt that can be taken is. -/
theorem doInterruptV7m_irq_ok (host : Host) (taken : Taken m.nvic.gic 0) :
    ∃ m', doInterruptV7m host .irq m = .ok m' := by
  have ack : ∃ r, armv7mNvicAcknowledgeIrq m.nvic = .ok r := by
    unfold armv7mNvicAcknowledgeIrq
    obtain ⟨idle, _⟩ | ⟨_, u, _, e⟩ := gicAcknowledgeIrq_cases m.nvic.gic 0
    · exact absurd taken idle
    · rw [e]
      exact ⟨_, if_neg taken.1⟩
  obtain ⟨r, hr⟩ := ack
  exact ⟨_, bind_ok_iff.mpr ⟨r, hr, rfl⟩⟩

theorem nests_iff (sound : s.Sound) (behaves : Behaves host scale s e) (good : InStep s) :
    Nests s e ↔ ∀ t, nestedStep host scale s e = .ok t → InStep t := by
  have steps : (∀ t, nestedStep host scale s e = .ok t → InStep t) ↔
      ∀ m, v7mStep host scale s.machine e = .ok m → InStep ⟨m, framesAfter s e⟩ := by
    constructor
    · exact fun all m hm => all _ (bind_ok_iff.mpr ⟨m, hm, rfl⟩)
    · intro all t ht
      obtain ⟨m, hm, ht⟩ := bind_ok_iff.mp ht
      cases ht
      exact all m hm
  rw [steps]
  obtain rfl | rfl | ordinary := event_cases e
  · constructor
    · intro fresh m hm
      obtain ⟨_, taken, _⟩ := acknowledge_spec (taken_acknowledged hm)
      exact (take_inStep_iff sound behaves.1 behaves.2 good hm).mpr (fresh taken)
    · intro all taken
      obtain ⟨m, hm⟩ := doInterruptV7m_irq_ok host taken
      exact (take_inStep_iff sound behaves.1 behaves.2 good hm).mp (all m hm)
  · exact (return_inStep_iff sound behaves good).symm
  · refine ⟨fun _ m hm => ?_, fun _ => ordinary.nests s⟩
    rw [ordinary.frames]
    exact (still_of_step ordinary behaves hm).inStep good

/-- Out of reset, with no frame. -/
def Nested.start (cpu : Cpu) (mem : PhysMemory) (cpuid : BitVec 32) (now : Nat) : Nested :=
  ⟨.start cpu mem cpuid now, []⟩

theorem start_inStep (cpu : Cpu) (mem : PhysMemory) (cpuid : BitVec 32) (now : Nat) :
    InStep (.start cpu mem cpuid now) := by
  refine ⟨[], ?_, rfl, rfl⟩
  exact .nil

/-- Along any run from reset in which the code leaves the stacked frames alone,
the exception number and the stacked ones agree with the NVIC's list of active
interrupts after every step precisely when every interrupt that is taken was not
active and no return is from exception 0. -/
theorem inStep_along_iff (host : Host) (scale : Int) (cpu : Cpu) (mem : PhysMemory)
    (cpuid : BitVec 32) (now : Nat) {events : List V7mEvent}
    (behaves : StepsMeet (nestedStep host scale) (Behaves host scale) (.start cpu mem cpuid now)
      events) :
    Always (nestedStep host scale) InStep (.start cpu mem cpuid now) events ↔
      StepsMeet (nestedStep host scale) Nests (.start cpu mem cpuid now) events := by
  refine always_iff_stepsMeet_of (A := Nested.Sound) (fun s e t sound hb ht => ?_)
    (fun s e sound hb good => ?_) ?_ (start_inStep cpu mem cpuid now) behaves
  · exact nestedStep_sound sound hb ht
  · exact nests_iff sound hb good
  · exact ⟨start_sound cpu mem cpuid now, nofun⟩

/-! ## Three runs -/

instance (host : Host) (scale : Int) (s : Nested) (e : V7mEvent) :
    Decidable (∀ m, v7mStep host scale s.machine e = .ok m → Intact s.frames s.machine m) :=
  match v7mStep host scale s.machine e with
  | .ok m =>
    decidable_of_iff (∀ base ∈ s.frames, Agree m.mem.bytes s.machine.mem.bytes base (base + 32))
      ⟨fun intact _ hm => Except.ok.inj hm ▸ intact, fun all => all m rfl⟩
  | .error _ => isTrue nofun

instance (host : Host) (scale : Int) (s : Nested) (e : V7mEvent) :
    Decidable (Behaves host scale s e) := by
  unfold Behaves
  split <;> infer_instance

instance (s : Nested) (e : V7mEvent) : Decidable (Nests s e) := by
  unfold Nests Taken
  split <;> infer_instance

/-- PendSV is taken, SysTick interrupts it, and both return. -/
def nestedRun : List V7mEvent :=
  pendPendsv ++ .interrupt .irq :: interruptedHandler ++ [.interrupt .exceptionExit]

theorem inStep_along_nestedRun :
    Always (nestedStep quietHost 1) InStep (.start threadCpu threadMem 0 0) nestedRun := by
  have behaves : StepsMeet (nestedStep quietHost 1) (Behaves quietHost 1)
      (.start threadCpu threadMem 0 0) nestedRun := by decide +kernel
  have nests : StepsMeet (nestedStep quietHost 1) Nests (.start threadCpu threadMem 0 0)
      nestedRun := by decide +kernel
  exact (inStep_along_iff quietHost 1 threadCpu threadMem 0 0 behaves).mpr nests

/-- SysTick is taken, raised in priority, taken again, and both returns made. -/
def retakenRun : List V7mEvent :=
  [write 0xd20 0x40000000#32, pendSystick, .interrupt .irq, write 0xd20 0x20000000#32, pendSystick,
    .interrupt .irq, bxLr, .interrupt .exceptionExit, bxLr, .interrupt .exceptionExit]

/-- Interrupt 0 is pended by software and taken, and its handler returns. -/
def exceptionZeroRun : List V7mEvent :=
  [write 0xf00 0x02000000#32, .interrupt .irq, bxLr, .interrupt .exceptionExit]

/-- The code behaves throughout the run, and the stacks do not stay in step. -/
def FallsOut (events : List V7mEvent) : Prop :=
  StepsMeet (nestedStep quietHost 1) (Behaves quietHost 1) (.start threadCpu threadMem 0 0) events ∧
    ¬ Always (nestedStep quietHost 1) InStep (.start threadCpu threadMem 0 0) events

/-- After the first run the CPU is in thread mode and SysTick still the running
interrupt; after the second no frame is left and interrupt 0 is still active. -/
theorem stacks_out_of_step : FallsOut retakenRun ∧ FallsOut exceptionZeroRun := by
  constructor
  · refine ⟨by decide +kernel, fun always => ?_⟩
    have observed : (run (nestedStep quietHost 1) (.start threadCpu threadMem 0 0)
        retakenRun).toOption.map (fun t => (t.machine.cpu.exception,
          t.machine.nvic.gic.runningIrq 0)) = some (0, 15) := by decide +kernel
    obtain ⟨t, ht, thread, running⟩ := exists_of_observed_pair observed
    obtain ⟨_, _, number, _⟩ := always.final ht
    rw [thread, running] at number
    exact absurd number (by decide)
  · refine ⟨by decide +kernel, fun always => ?_⟩
    have observed : (run (nestedStep quietHost 1) (.start threadCpu threadMem 0 0)
        exceptionZeroRun).toOption.map (fun t => (t.machine.nvic.gic.runningIrq 0, t.frames)) =
        some (0, []) := by decide +kernel
    obtain ⟨t, ht, running, frames⟩ := exists_of_observed_pair observed
    obtain ⟨l, chain, _, stacked⟩ := always.final ht
    rw [running] at chain
    obtain ⟨rest, rfl, _⟩ := chain.tail (by decide)
    rw [frames] at stacked
    simp at stacked

end QemuStm32.V7m
