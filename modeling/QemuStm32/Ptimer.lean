import QemuStm32.Fault
import QemuStm32.Lib.Runs

/-!
# The countdown timer

`hw/ptimer.c`: a counter with a 64.32 fixed-point period on one QEMU timer.
Times are signed 64-bit nanoseconds of the virtual clock. The QEMU timer is armed
exactly while the counter is enabled along the runs that never leave a running
counter without a next event, and along no others (`ptimer_armed_iff`).
-/

namespace QemuStm32.Ptimer

open Runs

/-- The values of `enabled`. -/
inductive Mode
  | disabled
  | periodic
  | oneshot
  deriving DecidableEq, Repr

/-- `ptimer_state`. `timer` is the deadline of the QEMU timer while it is in
the list of active timers, `bh` tells whether there is a bottom half, and
`triggered` records `enabled` at each time it was scheduled. -/
structure PtimerState where
  enabled : Mode
  limit : BitVec 64
  delta : BitVec 64
  periodFrac : BitVec 32
  period : BitVec 64
  lastEvent : BitVec 64
  nextEvent : BitVec 64
  bh : Bool
  timer : Option (BitVec 64)
  triggered : List Mode
  deriving DecidableEq, Repr

def ptimerInit (bh : Bool) : PtimerState := ⟨.disabled, 0, 0, 0, 0, 0, 0, bh, none, []⟩

def clz64 (x : BitVec 64) : Nat := if x = 0 then 64 else 63 - x.toNat.log2

/-- The divisor of `ptimer_get_count`: the period scaled by `shift` bits and
rounded up. -/
def scaledDiv (period : BitVec 64) (frac : BitVec 32) (shift : Nat) : BitVec 64 :=
  let div := period <<< shift
  if 32 ≤ shift then div ||| (frac.setWidth 64 <<< (shift - 32))
  else
    let div := if shift ≠ 0 then div ||| (frac >>> (32 - shift)).setWidth 64 else div
    if frac <<< shift ≠ 0 then div + 1 else div

section
variable (now : BitVec 64) (s : PtimerState)

def ptimerTrigger : PtimerState :=
  if s.bh then { s with triggered := s.enabled :: s.triggered } else s

/-- The start of `ptimer_reload`: a counter at zero triggers and is filled. -/
def refill : PtimerState :=
  if s.delta = 0 then { ptimerTrigger s with delta := s.limit } else s

def ptimerReload : PtimerState :=
  let s := refill s
  if s.delta = 0 ∨ s.period = 0 then { s with enabled := .disabled }
  else
    let next := s.nextEvent + s.delta * s.period
    let next := if s.periodFrac ≠ 0 then
      next + ((s.periodFrac.setWidth 64 * s.delta) >>> 32) else next
    { s with lastEvent := s.nextEvent, nextEvent := next, timer := some next }

def ptimerTick : PtimerState :=
  let s := { ptimerTrigger s with delta := 0 }
  if s.enabled = .oneshot then { s with enabled := .disabled } else ptimerReload s

def ptimerGetCount : BitVec 64 :=
  if s.enabled = .disabled then s.delta
  else if 0 < (now - s.nextEvent).toInt ∨ s.period = 0 then 0
  else
    let rem := s.nextEvent - now
    let shift := min (clz64 rem) (clz64 s.period)
    (rem <<< shift) / scaledDiv s.period s.periodFrac shift

/-- The end of the four setters: a running counter starts again from now. -/
def restart : PtimerState :=
  if s.enabled = .disabled then s else ptimerReload { s with nextEvent := now }

def ptimerSetCount (count : BitVec 64) : PtimerState := restart now { s with delta := count }

def ptimerRun (oneshot : Bool) : PtimerState :=
  if s.enabled ≠ .disabled then s
  else if s.period = 0 then s
  else ptimerReload
    { s with enabled := if oneshot then .oneshot else .periodic, nextEvent := now }

def ptimerStop : PtimerState :=
  if s.enabled = .disabled then s
  else { s with delta := ptimerGetCount now s, timer := none, enabled := .disabled }

def ptimerSetPeriod (period : BitVec 64) : PtimerState :=
  restart now { s with period := period, periodFrac := 0 }

/-- The two quotients are truncated to the widths of their fields. -/
def ptimerSetFreq (freq : BitVec 32) : Except Fault PtimerState :=
  if freq = 0 then .error .divideByZero
  else .ok (restart now
    { s with period := BitVec.ofNat 64 (1000000000 / freq.toNat)
             periodFrac := BitVec.ofNat 32 (1000000000 * 2 ^ 32 / freq.toNat) })

def ptimerSetLimit (limit : BitVec 64) (reload : Bool) : PtimerState :=
  if reload then restart now { s with limit := limit, delta := limit }
  else { s with limit := limit }

/-- `qemu_run_timers` at time `now`: an expired timer leaves the list before
its callback runs. -/
def expire : PtimerState :=
  match s.timer with
  | none => s
  | some deadline => if deadline.sle now then ptimerTick { s with timer := none } else s

end

/-! ## Armed exactly while enabled -/

inductive Call
  | run (oneshot : Bool)
  | stop
  | setCount (count : BitVec 64)
  | setLimit (limit : BitVec 64) (reload : Bool)
  | setPeriod (period : BitVec 64)
  | setFreq (freq : BitVec 32)
  | expire
  deriving DecidableEq, Repr

/-- A call at a time. -/
def step (s : PtimerState) : BitVec 64 × Call → Except Fault PtimerState
  | (now, .run oneshot) => .ok (ptimerRun now s oneshot)
  | (now, .stop) => .ok (ptimerStop now s)
  | (now, .setCount count) => .ok (ptimerSetCount now s count)
  | (now, .setLimit limit reload) => .ok (ptimerSetLimit now s limit reload)
  | (now, .setPeriod period) => .ok (ptimerSetPeriod now s period)
  | (now, .setFreq freq) => ptimerSetFreq now s freq
  | (now, .expire) => .ok (expire now s)

/-- The QEMU timer is armed exactly while the counter is enabled, and the
bottom half was never scheduled while it was disabled. -/
def Armed (s : PtimerState) : Prop :=
  (s.timer.isSome ↔ s.enabled ≠ .disabled) ∧ .disabled ∉ s.triggered

/-- With a counter and a limit of zero, or a period of zero, there is no next
event. -/
def Stalls (delta limit period : BitVec 64) : Prop := delta = 0 ∧ limit = 0 ∨ period = 0

/-- A running counter is not set to a value, a limit, a period or a frequency
that leaves it without a next event. -/
def KeepsCounting (s : PtimerState) : BitVec 64 × Call → Prop
  | (_, .setCount count) => s.enabled ≠ .disabled → ¬ Stalls count s.limit s.period
  | (_, .setLimit limit true) => s.enabled ≠ .disabled → ¬ Stalls limit limit s.period
  | (_, .setPeriod period) => s.enabled ≠ .disabled → ¬ Stalls s.delta s.limit period
  | (_, .setFreq freq) => freq ≠ 0 → s.enabled ≠ .disabled →
      ¬ Stalls s.delta s.limit (BitVec.ofNat 64 (1000000000 / freq.toNat))
  | _ => True

section
variable (now : BitVec 64) (s : PtimerState)

theorem trigger_quiet (on : s.enabled ≠ .disabled) (quiet : .disabled ∉ s.triggered) :
    .disabled ∉ (ptimerTrigger s).triggered := by
  unfold ptimerTrigger
  split
  · simp [on.symm, quiet]
  · exact quiet

theorem trigger_fields : (ptimerTrigger s).enabled = s.enabled ∧
    (ptimerTrigger s).timer = s.timer ∧ (ptimerTrigger s).period = s.period := by
  unfold ptimerTrigger
  split <;> exact ⟨rfl, rfl, rfl⟩

theorem refill_fields : (refill s).enabled = s.enabled ∧ (refill s).timer = s.timer ∧
    (((refill s).delta = 0 ∨ (refill s).period = 0) ↔ Stalls s.delta s.limit s.period) := by
  obtain ⟨enabled, timer, period⟩ := trigger_fields s
  unfold refill Stalls
  split
  case isTrue zero => exact ⟨enabled, timer, by rw [zero, period]; simp⟩
  case isFalse nonzero => exact ⟨rfl, rfl, by rw [or_iff_right nonzero]; grind⟩

theorem refill_quiet (on : s.enabled ≠ .disabled) (quiet : .disabled ∉ s.triggered) :
    .disabled ∉ (refill s).triggered := by
  unfold refill
  split
  · exact trigger_quiet s on quiet
  · exact quiet

/-- A reload arms the timer or disables the counter; in the second case an armed
timer stays armed. -/
theorem reload_armed_iff (on : s.enabled ≠ .disabled) (quiet : .disabled ∉ s.triggered) :
    Armed (ptimerReload s) ↔ (Stalls s.delta s.limit s.period → s.timer = none) := by
  obtain ⟨enabled, timer, stalls⟩ := refill_fields s
  have quiet := refill_quiet s on quiet
  unfold ptimerReload Armed
  by_cases stop : Stalls s.delta s.limit s.period
  · rw [if_pos (stalls.mpr stop)]
    simp [timer, quiet, stop]
  · rw [if_neg (mt stalls.mp stop)]
    simp [enabled, on, quiet, stop]

variable {s}

theorem restart_armed_iff (armed : Armed s) : Armed (restart now s) ↔
    (s.enabled ≠ .disabled → ¬ Stalls s.delta s.limit s.period) := by
  unfold restart
  split
  case isTrue off => simp [armed, off]
  case isFalse on =>
    rw [reload_armed_iff { s with nextEvent := now } on armed.2]
    obtain ⟨d, hd⟩ := Option.isSome_iff_exists.mp (armed.1.mpr on)
    simp [hd, on]

theorem run_armed (oneshot : Bool) (armed : Armed s) : Armed (ptimerRun now s oneshot) := by
  unfold ptimerRun
  split
  · exact armed
  case isFalse off =>
    split
    · exact armed
    · refine (reload_armed_iff { s with enabled := _, nextEvent := now } ?_ armed.2).mpr fun _ => ?_
      · cases oneshot <;> simp
      · exact Option.not_isSome_iff_eq_none.mp fun h => off (armed.1.mp h)

theorem stop_armed (armed : Armed s) : Armed (ptimerStop now s) := by
  unfold ptimerStop
  split
  · exact armed
  · exact ⟨by simp, armed.2⟩

/-- An expired timer finds the counter enabled and no timer in the list. -/
theorem tick_armed (on : s.enabled ≠ .disabled) (quiet : .disabled ∉ s.triggered)
    (expired : s.timer = none) : Armed (ptimerTick s) := by
  obtain ⟨enabled, timer, _⟩ := trigger_fields s
  have quiet := trigger_quiet s on quiet
  unfold ptimerTick
  by_cases once : (ptimerTrigger s).enabled = .oneshot
  · rw [if_pos once]
    exact ⟨by simp [timer, expired], quiet⟩
  · rw [if_neg once]
    exact (reload_armed_iff { ptimerTrigger s with delta := 0 } (enabled ▸ on) quiet).mpr
      fun _ => timer.trans expired

theorem expire_armed (armed : Armed s) : Armed (expire now s) := by
  unfold expire
  split
  · exact armed
  case h_2 deadline ht =>
    split
    · exact tick_armed (s := { s with timer := none }) (armed.1.mp (by rw [ht]; rfl)) armed.2 rfl
    · exact armed

/-- For one call, not stalling a running counter is exactly what keeps the
timer in step with it. -/
theorem keepsCounting_iff (e : BitVec 64 × Call) (armed : Armed s) :
    KeepsCounting s e ↔ ∀ t, step s e = .ok t → Armed t := by
  obtain ⟨now, call⟩ := e
  cases call with
  | run oneshot => simp [KeepsCounting, step, run_armed now oneshot armed]
  | stop => simp [KeepsCounting, step, stop_armed now armed]
  | setCount count =>
    simp only [KeepsCounting, step, Except.ok.injEq, forall_eq']
    exact (restart_armed_iff (s := { s with delta := count }) now armed).symm
  | setLimit limit reload =>
    simp only [step, Except.ok.injEq, forall_eq']
    cases reload with
    | false => exact ⟨fun _ => armed, fun _ => trivial⟩
    | true =>
      exact (restart_armed_iff (s := { s with limit := limit, delta := limit }) now armed).symm
  | setPeriod period =>
    simp only [KeepsCounting, step, Except.ok.injEq, forall_eq']
    exact (restart_armed_iff (s := { s with period := period, periodFrac := 0 }) now armed).symm
  | setFreq freq =>
    simp only [KeepsCounting, step, ptimerSetFreq]
    by_cases hf : freq = 0
    · simp [hf]
    · rw [if_neg hf]
      simp only [ne_eq, hf, not_false_eq_true, true_imp_iff, Except.ok.injEq, forall_eq']
      exact (restart_armed_iff (s := { s with
        period := BitVec.ofNat 64 (1000000000 / freq.toNat), periodFrac := _ }) now armed).symm
  | expire => simp [KeepsCounting, step, expire_armed now armed]

end

/-- Along any run, the QEMU timer is armed exactly while the counter is enabled
and the bottom half is scheduled only while it is, precisely when no call of the
run stalls a running counter. -/
theorem ptimer_armed_iff (bh : Bool) (events : List (BitVec 64 × Call)) :
    Always step Armed (ptimerInit bh) events ↔
      StepsMeet step KeepsCounting (ptimerInit bh) events := by
  refine always_iff_stepsMeet (A := fun _ => True) (fun _ _ _ _ _ => trivial) ?_ trivial ?_
  · exact fun s e _ armed => keepsCounting_iff e armed
  · simp [Armed, ptimerInit]

/-- A running counter whose period is set to zero is disabled with its timer
armed, and the expiry schedules the bottom half. -/
theorem disabled_ptimer_triggers :
    ¬ ∀ (bh : Bool) (events : List (BitVec 64 × Call)),
      Always step Armed (ptimerInit bh) events := by
  intro h
  obtain ⟨t, ht, triggered⟩ := exists_of_observed (f := PtimerState.triggered)
    (x := run step (ptimerInit true) [(0, .setPeriod 10), (0, .setLimit 5 true), (0, .run false),
      (20, .setPeriod 0), (50, .expire)]) (b := [.disabled, .disabled]) (by decide)
  have quiet := ((h true _).final ht).2
  rw [triggered] at quiet
  exact quiet List.mem_cons_self

end QemuStm32.Ptimer
