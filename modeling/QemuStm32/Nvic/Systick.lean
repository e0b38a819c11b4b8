import QemuStm32.Fault
import QemuStm32.Lib.Bits
import QemuStm32.Lib.Runs

/-!
# SysTick

The system timer of `hw/armv7m_nvic.c`, with the virtual clock and the one
QEMU timer it uses. Times are nanoseconds of the virtual clock as integers.

`armed_iff_enabled_along_iff`: the timer is armed exactly while the counter is
enabled along the runs that leave the current-value register and the clock
source alone while the counter is disabled, and along no others.
-/

namespace QemuStm32.Nvic

open Runs

def systickEnable : BitVec 32 := 1#32 <<< 0
def systickTickint : BitVec 32 := 1#32 <<< 1
def systickClksource : BitVec 32 := 1#32 <<< 2
def systickCountflag : BitVec 32 := 1#32 <<< 16

/-- The `systick` member of `nvic_state`. `timer` is the deadline of the QEMU
timer while it is in the list of active timers. -/
structure Systick where
  control : BitVec 32
  reload : BitVec 32
  tick : Int
  timer : Option Int
  deriving DecidableEq, Repr

/-- `systick_scale`; `scale` is the global `system_clock_scale`. -/
def systickScale (scale : Int) (s : Systick) : Int :=
  if s.control &&& systickClksource ≠ 0#32 then scale else 1000

/-- `qemu_mod_timer` and `qemu_del_timer` on the SysTick timer. -/
def modTimer (s : Systick) (deadline : Int) : Systick := { s with timer := some deadline }
def delTimer (s : Systick) : Systick := { s with timer := none }

section
variable (scale now : Int) (s : Systick)

/-- `systick_reload`. The sum `reload + 1` is 32-bit. -/
def systickReload (reset : Bool) : Systick :=
  let tick := if reset then now else s.tick
  let tick := tick + ((s.reload + 1#32).toNat : Int) * systickScale scale s
  modTimer { s with tick := tick } tick

/-- `systick_timer_tick`. The second component tells whether the SysTick
exception is made pending. -/
def systickTimerTick : Systick × Bool :=
  let s := { s with control := s.control ||| systickCountflag }
  let pend := decide (s.control &&& systickTickint ≠ 0#32)
  if s.reload = 0#32 then ({ s with control := s.control &&& ~~~systickEnable }, pend)
  else (systickReload scale now s false, pend)

/-- `nvic_readl` at 0x10: reading clears the count flag. -/
def readControl : BitVec 32 × Systick :=
  (s.control, { s with control := s.control &&& ~~~systickCountflag })

/-- `nvic_readl` at 0x18. The quotient is assigned to a `uint32_t`. -/
def readCurrent : Except Fault (BitVec 32) :=
  if s.control &&& systickEnable = 0#32 then .ok 0
  else if now ≥ s.tick then .ok 0
  else if systickScale scale s = 0 then .error .divideByZero
  else
    let val := BitVec.ofInt 32 ((s.tick - (now + 1)).tdiv (systickScale scale s) + 1)
    .ok (if val > s.reload then 0 else val)

/-- `nvic_writel` at 0x10. -/
def writeControl (value : BitVec 32) : Systick :=
  let oldval := s.control
  let s := { s with control := (s.control &&& 0xfffffff8#32) ||| (value &&& 7#32) }
  if (oldval ^^^ value) &&& systickEnable ≠ 0#32 then
    if value &&& systickEnable ≠ 0#32 then
      if s.tick ≠ 0 then
        let s := { s with tick := s.tick + now }
        modTimer s s.tick
      else systickReload scale now s true
    else
      let s := delTimer s
      let s := { s with tick := s.tick - now }
      if s.tick < 0 then { s with tick := 0 } else s
  else if (oldval ^^^ value) &&& systickClksource ≠ 0#32 then systickReload scale now s true
  else s

/-- `nvic_writel` at 0x14. -/
def writeReload (value : BitVec 32) : Systick := { s with reload := value }

/-- `nvic_writel` at 0x18: any value reloads the timer. -/
def writeCurrent : Systick :=
  let s := systickReload scale now s true
  { s with control := s.control &&& ~~~systickCountflag }

end

/-- The timer is in the list and its deadline is reached. -/
def due (now : Int) (s : Systick) : Prop := ∃ d, s.timer = some d ∧ d ≤ now

instance (now : Int) (s : Systick) : Decidable (due now s) :=
  match h : s.timer with
  | none => isFalse (by rintro ⟨d, hd, _⟩; simp [h] at hd)
  | some d => decidable_of_iff (d ≤ now) (by simp [due, h])

/-- One round of `qemu_run_timers`: an expired timer leaves the list before its
callback runs. -/
def runTimers (scale now : Int) (s : Systick) : Systick × Bool :=
  if due now s then systickTimerTick scale now (delTimer s) else (s, false)

/-! ## Runs under a virtual clock that never goes back -/

inductive SystickEvent
  | advance (ns : Nat)
  | readControl
  | readReload
  | readCurrent
  | writeControl (value : BitVec 32)
  | writeReload (value : BitVec 32)
  | writeCurrent (value : BitVec 32)
  | runTimers
  deriving DecidableEq, Repr

/-- SysTick and the clock. `maxReload` and `oneShot` record the past for the
statements below: the largest reload value written, and whether the counter was
last stopped by an expiry that found the reload register zero. -/
structure Clocked where
  systick : Systick
  now : Nat
  maxReload : Nat
  oneShot : Bool
  deriving DecidableEq, Repr

/-- The state `armv7m_nvic_init` leaves, at time `now`. -/
def Clocked.start (now : Nat) : Clocked := ⟨⟨0, 0, 0, none⟩, now, 0, false⟩

variable (x : BitVec 32)

/-- The enable and clock-source bits of a control word. -/
def enableBit : Bool := x.getLsbD 0
def clkBit : Bool := x.getLsbD 2

/-- A control write that changes the enable bit to one. -/
def enables (s : Systick) (value : BitVec 32) : Bool := !enableBit s.control && enableBit value

section
variable (scale : Int)

section
variable (c : Clocked)

def systickStep : SystickEvent → Except Fault Clocked
  | .advance ns => .ok { c with now := c.now + ns }
  | .readControl => .ok { c with systick := (readControl c.systick).2 }
  | .readReload => .ok c
  | .readCurrent => do
    let _ ← readCurrent scale c.now c.systick
    .ok c
  | .writeControl value =>
    .ok { c with
      systick := writeControl scale c.now c.systick value
      oneShot := c.oneShot && !enables c.systick value }
  | .writeReload value =>
    .ok { c with systick := writeReload c.systick value, maxReload := max c.maxReload value.toNat }
  | .writeCurrent _ => .ok { c with systick := writeCurrent scale c.now c.systick }
  | .runTimers =>
    .ok { c with
      systick := (runTimers scale c.now c.systick).1
      oneShot := c.oneShot || decide (due c.now c.systick ∧ c.systick.reload = 0#32) }

/-! ## Bits of the control register -/

@[simp] theorem and_enable_eq_zero : x &&& systickEnable = 0#32 ↔ enableBit x = false := by
  rw [← not_iff_not, Bool.not_eq_false]
  exact Bits.and_bit_ne_zero x (by decide)

@[simp] theorem and_clksource_eq_zero : x &&& systickClksource = 0#32 ↔ clkBit x = false := by
  rw [← not_iff_not, Bool.not_eq_false]
  exact Bits.and_bit_ne_zero x (by decide)

@[simp] theorem enableBit_xor (x y : BitVec 32) :
    enableBit (x ^^^ y) = (enableBit x != enableBit y) := BitVec.getLsbD_xor

@[simp] theorem clkBit_xor (x y : BitVec 32) : clkBit (x ^^^ y) = (clkBit x != clkBit y) :=
  BitVec.getLsbD_xor

/-- The control register after a control write: its low three bits are the
written ones. -/
def newControl (s : Systick) (value : BitVec 32) : BitVec 32 :=
  (s.control &&& 0xfffffff8#32) ||| (value &&& 7#32)

@[simp] theorem enableBit_newControl (s : Systick) (value : BitVec 32) :
    enableBit (newControl s value) = enableBit value := by
  simp [newControl, enableBit]

@[simp] theorem clkBit_newControl (s : Systick) (value : BitVec 32) :
    clkBit (newControl s value) = clkBit value := by
  simp [newControl, clkBit]

/-- Setting or clearing the count flag changes neither bit. -/
@[simp] theorem enableBit_countflag : enableBit (x ||| systickCountflag) = enableBit x ∧
      enableBit (x &&& ~~~systickCountflag) = enableBit x := by
  simp only [enableBit, systickCountflag, Bits.or_bit, Bits.and_not_bit]
  simp

@[simp] theorem clkBit_countflag : clkBit (x ||| systickCountflag) = clkBit x ∧
      clkBit (x &&& ~~~systickCountflag) = clkBit x := by
  simp only [clkBit, systickCountflag, Bits.or_bit, Bits.and_not_bit]
  simp

@[simp] theorem clear_enable :
    enableBit (x &&& ~~~systickEnable) = false ∧ clkBit (x &&& ~~~systickEnable) = clkBit x := by
  simp only [enableBit, clkBit, systickEnable, Bits.and_not_bit]
  simp

/-! ## What each operation does -/

theorem systickScale_eq (s : Systick) :
    systickScale scale s = if clkBit s.control = true then scale else 1000 := by
  simp [systickScale]

/-- The five outcomes of a control write: the counter is started from a stored
time or from the reload register, or stopped; or it stays as it is, with or
without a change of clock source. -/
theorem writeControl_cases (scale now : Int) (s : Systick) (value : BitVec 32) :
    (enables s value = true ∧ s.tick ≠ 0 ∧ writeControl scale now s value =
      { s with control := newControl s value, tick := s.tick + now,
               timer := some (s.tick + now) }) ∨
    (enables s value = true ∧ s.tick = 0 ∧ writeControl scale now s value =
      systickReload scale now { s with control := newControl s value } true) ∨
    (enableBit s.control = true ∧ enableBit value = false ∧ writeControl scale now s value =
      { s with control := newControl s value, tick := max (s.tick - now) 0, timer := none }) ∨
    (enableBit s.control = enableBit value ∧ clkBit s.control ≠ clkBit value ∧
      writeControl scale now s value =
      systickReload scale now { s with control := newControl s value } true) ∨
    (enableBit s.control = enableBit value ∧ clkBit s.control = clkBit value ∧
      writeControl scale now s value = { s with control := newControl s value }) := by
  unfold writeControl enables
  simp only [← newControl.eq_1, delTimer, modTimer, ne_eq, and_enable_eq_zero,
    and_clksource_eq_zero, enableBit_xor, clkBit_xor, Bool.not_eq_false, bne_iff_ne]
  by_cases hb : enableBit s.control = enableBit value
  · by_cases hc : clkBit s.control = clkBit value
    · exact .inr (.inr (.inr (.inr ⟨hb, hc, by simp [hb, hc]⟩)))
    · exact .inr (.inr (.inr (.inl ⟨hb, hc, by simp [hb, hc]⟩)))
  cases hv : enableBit value
  · have hs : enableBit s.control = true := by simpa [hv] using hb
    refine .inr (.inr (.inl ⟨hs, rfl, ?_⟩))
    simp only [hs, Bool.true_eq_false, not_false_eq_true, ↓reduceIte, Bool.false_eq_true]
    split
    · rw [max_eq_right (by omega)]
    · rw [max_eq_left (by omega)]
  · have hs : enableBit s.control = false := by simpa [hv] using hb
    by_cases ht : s.tick = 0
    · exact .inr (.inl ⟨by simp [hs], ht, by simp [hs, ht]⟩)
    · exact .inl ⟨by simp [hs], ht, by simp [hs, ht]⟩

/-- An expired timer either stops the counter or is armed again one period
after its deadline. -/
theorem runTimers_cases (scale now : Int) (s : Systick) :
    (¬ due now s ∧ runTimers scale now s = (s, false)) ∨
    (due now s ∧ s.reload = 0#32 ∧ (runTimers scale now s).1 =
      { s with control := (s.control ||| systickCountflag) &&& ~~~systickEnable, timer := none }) ∨
    (due now s ∧ s.reload ≠ 0#32 ∧ (runTimers scale now s).1 =
      systickReload scale now { s with control := s.control ||| systickCountflag } false) := by
  unfold runTimers
  by_cases hd : due now s
  · rw [if_pos hd]
    by_cases hr : s.reload = 0#32
    · exact .inr (.inl ⟨hd, hr, by simp [systickTimerTick, delTimer, hr]⟩)
    · exact .inr (.inr ⟨hd, hr, by simp [systickTimerTick, delTimer, hr, systickReload, modTimer,
        systickScale]⟩)
  · exact .inl ⟨hd, by rw [if_neg hd]⟩

/-- A read of the current value changes nothing. -/
theorem step_readCurrent {scale : Int} {c t : Clocked}
    (ht : systickStep scale c .readCurrent = .ok t) : t = c := by
  unfold systickStep at ht
  cases hr : readCurrent scale c.now c.systick <;> rw [hr] at ht <;> cases ht
  rfl

theorem runTimers_pends {scale now : Int} {s : Systick} (h : (runTimers scale now s).2 = true) :
    due now s := by
  unfold runTimers at h
  split at h
  · assumption
  · simp at h

/-! ## Armed exactly while enabled -/

/-- The timer is in the list of active timers exactly while the counter is
enabled. -/
def ArmedIffEnabled : Prop :=
  c.systick.timer.isSome = enableBit c.systick.control

/-- A disabled counter gets no write to its current value, and no control write
that changes the clock source and leaves it disabled. -/
def LeavesStopped : SystickEvent → Prop
  | .writeCurrent _ => enableBit c.systick.control = true
  | .writeControl value =>
    enableBit c.systick.control = false → enableBit value = false →
      clkBit c.systick.control = clkBit value
  | _ => True

/-- The SysTick exception is made pending only while the counter is enabled. -/
def PendsEnabled : SystickEvent → Prop
  | .runTimers => (runTimers scale c.now c.systick).2 = true → enableBit c.systick.control = true
  | _ => True

theorem writeControl_armed_iff (scale now : Int) (s : Systick) (value : BitVec 32)
    (h : s.timer.isSome = enableBit s.control) :
    (writeControl scale now s value).timer.isSome =
        enableBit (writeControl scale now s value).control ↔
      (enableBit s.control = false → enableBit value = false →
        clkBit s.control = clkBit value) := by
  obtain ⟨hv, _, e⟩ | ⟨hv, _, e⟩ | ⟨hs, hv, e⟩ | ⟨hsame, hc, e⟩ | ⟨hsame, hc, e⟩ :=
    writeControl_cases scale now s value <;> rw [e]
  · simp_all [enables]
  · simp_all [enables, systickReload, modTimer]
  · simp [hs, hv]
  · simp only [systickReload, modTimer, Option.isSome_some, enableBit_newControl, hsame]
    cases enableBit value <;> simp [hc]
  · simp [h, hsame, hc]

/-- For one event, leaving a stopped counter alone is exactly what keeps the
timer in step with the enable bit. -/
theorem leavesStopped_iff (e : SystickEvent) (h : ArmedIffEnabled c) :
    LeavesStopped c e ↔ ∀ t, systickStep scale c e = .ok t → ArmedIffEnabled t := by
  cases e with
  | advance ns => simpa [LeavesStopped, systickStep, ArmedIffEnabled] using h
  | readControl => simpa [LeavesStopped, systickStep, ArmedIffEnabled, readControl] using h
  | readReload => simpa [LeavesStopped, systickStep, ArmedIffEnabled] using h
  | readCurrent =>
    refine ⟨fun _ t ht => ?_, fun _ => trivial⟩
    rwa [step_readCurrent ht]
  | writeControl value =>
    simp only [LeavesStopped, systickStep, Except.ok.injEq, forall_eq', ArmedIffEnabled]
    exact (writeControl_armed_iff scale c.now c.systick value h).symm
  | writeReload value =>
    simpa [LeavesStopped, systickStep, ArmedIffEnabled, writeReload] using h
  | writeCurrent value =>
    simp [LeavesStopped, systickStep, ArmedIffEnabled, writeCurrent, systickReload, modTimer]
  | runTimers =>
    simp only [LeavesStopped, systickStep, Except.ok.injEq, forall_eq', ArmedIffEnabled, true_iff]
    obtain ⟨_, e⟩ | ⟨_, _, e⟩ | ⟨⟨d, hd, _⟩, _, e⟩ := runTimers_cases scale c.now c.systick <;>
      rw [e]
    · exact h
    · simp
    · have on : enableBit c.systick.control = true := by rw [← h, hd]; rfl
      simp [systickReload, modTimer, on]

end

theorem start_armedIffEnabled (now : Nat) : ArmedIffEnabled (.start now) := by
  simp [ArmedIffEnabled, Clocked.start, enableBit]

/-- Along any run, the timer is armed exactly while the counter is enabled, and
no exception is pended while it is disabled, precisely when every event of the
run leaves a stopped counter alone. -/
theorem armed_iff_enabled_along_iff (now : Nat) (events : List SystickEvent) :
    (Always (systickStep scale) ArmedIffEnabled (.start now) events ∧
      StepsMeet (systickStep scale) (PendsEnabled scale) (.start now) events) ↔
    StepsMeet (systickStep scale) LeavesStopped (.start now) events := by
  have start := start_armedIffEnabled now
  have whole : Always (systickStep scale) ArmedIffEnabled (.start now) events ↔
      StepsMeet (systickStep scale) LeavesStopped (.start now) events :=
    always_iff_stepsMeet (fun _ _ _ _ _ => trivial)
      (fun c e _ h => leavesStopped_iff scale c e h) trivial start
  refine ⟨fun h => whole.mp h.1, fun h => ⟨whole.mpr h, ?_⟩⟩
  refine h.weaken (fun c e t hc hm ht => (leavesStopped_iff scale c e hc).mp hm t ht) ?_ start
  intro c e hc _
  cases e <;> try trivial
  case runTimers =>
    intro hp
    obtain ⟨d, hd, _⟩ := runTimers_pends hp
    rw [← hc, hd]; rfl

end

/-- A disabled counter whose current value is written is armed all the same, and
its expiry pends the exception. -/
theorem disabled_counter_fires :
    ¬ ∀ (scale : Int) (now : Nat) (events : List SystickEvent), 0 < scale →
      Always (systickStep scale) ArmedIffEnabled (.start now) events ∧
        StepsMeet (systickStep scale) (PendsEnabled scale) (.start now) events := by
  intro h
  have := (h 1000 0 [.writeControl 2, .writeCurrent 0] (by decide)).1
  have := this.final (t := ⟨⟨2, 0, 1000, some 1000⟩, 0, 0, false⟩) (by decide)
  unfold ArmedIffEnabled at this
  revert this
  decide

end QemuStm32.Nvic
