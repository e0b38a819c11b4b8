import QemuStm32.Nvic.Systick

/-!
# SysTick deadlines

`tick` holds an absolute deadline while the counter runs and a remaining time
while it is stopped. Two families of runs are treated:

* `unset_clock_progress`: on a board that leaves `system_clock_scale` at zero,
  what a run must avoid so that no read divides by zero and every expiry moves
  the deadline forward;
* `regular_deadlines`: with one positive scale, what a run must avoid so that an
  enabling write never arms the timer beyond one full period.
-/

namespace QemuStm32.Nvic

open Runs

/-- A timer in the list is set to the stored deadline. -/
def TimerAtTick (s : Systick) : Prop := ∀ d, s.timer = some d → d = s.tick

variable {s : Systick} {c : Clocked} {m : Nat} {now : Int}

theorem writeControl_timerAtTick (scale now : Int) (value : BitVec 32) (h : TimerAtTick s) :
    TimerAtTick (writeControl scale now s value) := by
  intro d
  obtain ⟨_, _, e⟩ | ⟨_, _, e⟩ | ⟨_, _, e⟩ | ⟨_, _, e⟩ | ⟨_, _, e⟩ :=
    writeControl_cases scale now s value <;> rw [e] <;> intro hd
  · exact (Option.some.inj hd).symm
  · exact (Option.some.inj hd).symm
  · cases hd
  · exact (Option.some.inj hd).symm
  · exact h d hd

theorem runTimers_timerAtTick (scale now : Int) (h : TimerAtTick s) :
    TimerAtTick (runTimers scale now s).1 := by
  intro d
  obtain ⟨_, e⟩ | ⟨_, _, e⟩ | ⟨_, _, e⟩ := runTimers_cases scale now s <;> rw [e] <;> intro hd
  · exact h d hd
  · cases hd
  · exact (Option.some.inj hd).symm

theorem step_timerAtTick {scale : Int} (c : Clocked) (e : SystickEvent) (t : Clocked)
    (h : TimerAtTick c.systick) (ht : systickStep scale c e = .ok t) : TimerAtTick t.systick := by
  cases e with
  | advance ns | readControl | readReload | writeReload value => cases ht; exact h
  | readCurrent => rwa [step_readCurrent ht]
  | writeControl value => cases ht; exact writeControl_timerAtTick _ _ value h
  | writeCurrent value =>
    cases ht
    intro d hd
    exact (Option.some.inj hd).symm
  | runTimers => cases ht; exact runTimers_timerAtTick _ _ h

/-! ## A board that leaves `system_clock_scale` at zero -/

/-- What is asked of one event: a read of the current value returns, and
an expiry that arms the timer again arms it later than the deadline that
expired. -/
def Progresses (c : Clocked) : SystickEvent → Prop
  | .readCurrent => ∃ v, readCurrent 0 c.now c.systick = .ok v
  | .runTimers => ∀ d, c.systick.timer = some d → d ≤ c.now → c.systick.reload ≠ 0#32 →
      ∃ d', (runTimers 0 c.now c.systick).1.timer = some d' ∧ d < d'
  | _ => True

/-- No control write enables the counter on the unset core clock while a time is
stored, and no expiry re-arms on that clock or with the reload value whose
successor is zero. -/
def AvoidsUnsetClock (c : Clocked) : SystickEvent → Prop
  | .writeControl value => enables c.systick value = true → clkBit value = true → c.systick.tick = 0
  | .runTimers => due c.now c.systick → c.systick.reload ≠ 0#32 →
      clkBit c.systick.control = false ∧ c.systick.reload ≠ 0xffffffff#32
  | _ => True

instance (c : Clocked) (e : SystickEvent) : Decidable (AvoidsUnsetClock c e) := by
  unfold AvoidsUnsetClock
  cases e <;> infer_instance

/-- On the unset clock a running counter never has time left. -/
structure NoTimeLeft (c : Clocked) : Prop where
  timer : TimerAtTick c.systick
  spent : enableBit c.systick.control = true → clkBit c.systick.control = true →
    c.systick.tick ≤ c.now

theorem readCurrent_ok_of_noTimeLeft (h : NoTimeLeft c) :
    ∃ v, readCurrent 0 c.now c.systick = .ok v := by
  unfold readCurrent
  cases hen : enableBit c.systick.control
  · exact ⟨0, by simp [hen]⟩
  cases hck : clkBit c.systick.control
  · have : systickScale 0 c.systick = 1000 := by simp [systickScale_eq, hck]
    simp only [and_enable_eq_zero, hen, Bool.true_eq_false, if_false, this]
    split
    · exact ⟨_, rfl⟩
    · exact ⟨_, by simp; rfl⟩
  · exact ⟨0, by simp [hen, h.spent hen hck]⟩

/-- A reload on the unset clock leaves no time. -/
theorem systickReload_unset (now : Int) (s : Systick) (hck : clkBit s.control = true) :
    (systickReload 0 now s true).tick = now := by
  simp [systickReload, modTimer, systickScale_eq, hck]

theorem writeControl_spent (h : NoTimeLeft c) (value : BitVec 32)
    (avoid : AvoidsUnsetClock c (.writeControl value))
    (hen : enableBit (writeControl 0 c.now c.systick value).control = true)
    (hck : clkBit (writeControl 0 c.now c.systick value).control = true) :
    (writeControl 0 c.now c.systick value).tick ≤ c.now := by
  obtain ⟨he, ht, e⟩ | ⟨_, _, e⟩ | ⟨_, hv, e⟩ | ⟨_, _, e⟩ | ⟨hsame, hc, e⟩ :=
    writeControl_cases 0 c.now c.systick value <;> rw [e] at hen hck ⊢
  · exact absurd (avoid he (by simpa using hck)) ht
  · exact (systickReload_unset _ _ hck).le
  · simp [hv] at hen
  · exact (systickReload_unset _ _ hck).le
  · simp only [enableBit_newControl, clkBit_newControl] at hen hck
    exact h.spent (hsame.trans hen) (hc.trans hck)

theorem step_noTimeLeft (c : Clocked) (e : SystickEvent) (t : Clocked) (h : NoTimeLeft c)
    (avoid : AvoidsUnsetClock c e) (ht : systickStep 0 c e = .ok t) : NoTimeLeft t := by
  refine ⟨step_timerAtTick c e t h.timer ht, ?_⟩
  cases e with
  | advance ns =>
    cases ht
    intro hen hck
    have := h.spent hen hck
    push_cast
    omega
  | readControl =>
    cases ht
    intro hen hck
    exact h.spent (by simpa [readControl] using hen) (by simpa [readControl] using hck)
  | readReload | writeReload value => cases ht; exact h.spent
  | readCurrent =>
    rw [step_readCurrent ht]
    exact h.spent
  | writeControl value =>
    cases ht
    exact writeControl_spent h value avoid
  | writeCurrent value =>
    cases ht
    intro _ hck
    have hck' : clkBit c.systick.control = true := by
      simpa [writeCurrent, systickReload, modTimer] using hck
    exact (systickReload_unset _ _ hck').le
  | runTimers =>
    cases ht
    intro hen hck
    obtain ⟨_, e⟩ | ⟨_, _, e⟩ | ⟨hd, hr, e⟩ := runTimers_cases 0 c.now c.systick <;>
      rw [e] at hen hck ⊢
    · exact h.spent hen hck
    · simp at hen
    · have := (avoid hd hr).1
      simp [systickReload, modTimer, this] at hck

theorem progresses_of_avoids (c : Clocked) (e : SystickEvent) (h : NoTimeLeft c)
    (avoid : AvoidsUnsetClock c e) : Progresses c e := by
  cases e <;> try trivial
  case readCurrent => exact readCurrent_ok_of_noTimeLeft h
  case runTimers =>
    intro d hd hle hr
    obtain ⟨hck, hmax⟩ := avoid ⟨d, hd, hle⟩ hr
    obtain ⟨hn, _⟩ | ⟨_, h0, _⟩ | ⟨_, _, e⟩ := runTimers_cases 0 c.now c.systick
    · exact absurd ⟨d, hd, hle⟩ hn
    · exact absurd h0 hr
    · refine ⟨_, by rw [e]; rfl, ?_⟩
      have positive : 0 < (c.systick.reload + 1#32).toNat := by
        bv_omega
      have : systickScale 0 { c.systick with control := c.systick.control ||| systickCountflag } =
          1000 := by simp [systickScale_eq, hck]
      simp only [this, h.timer d hd, Bool.false_eq_true, if_false]
      omega

/-- On a board that never sets `system_clock_scale`, along every run whose
events avoid the unset clock, each read of the current value returns and each
expiry that re-arms the timer moves its deadline forward. -/
theorem unset_clock_progress (now : Nat) (events : List SystickEvent)
    (avoid : StepsMeet (systickStep 0) AvoidsUnsetClock (.start now) events) :
    StepsMeet (systickStep 0) Progresses (.start now) events := by
  refine avoid.weaken step_noTimeLeft progresses_of_avoids ?_
  refine ⟨fun d hd => ?_, fun _ _ => ?_⟩
  · cases hd
  · simp [Clocked.start]

/-- A periodic counter on the reference clock, read and expired once. -/
theorem unset_clock_progress_reference :
    StepsMeet (systickStep 0) Progresses (.start 0)
      [.writeReload 5, .writeControl 3, .readCurrent, .advance 6000, .runTimers] := by
  exact unset_clock_progress _ _ (by decide)

/-- Stopping the counter on the reference clock and starting it on the unset
core clock makes the next read divide by zero; starting it directly on the core
clock makes every expiry re-arm at its own deadline. -/
theorem unset_clock_stuck :
    (¬ ∀ (now : Nat) (events : List SystickEvent),
      StepsMeet (systickStep 0) Progresses (.start now) events) ∧
    run (systickStep 0) (.start 0)
      [.writeReload 5, .writeControl 1, .writeControl 0, .writeControl 5, .readCurrent] =
        .error .divideByZero ∧
    run (systickStep 0) (.start 0) [.writeReload 5, .writeControl 5, .runTimers] =
      .ok ⟨⟨0x10005, 5, 0, some 0⟩, 0, 5, false⟩ := by
  refine ⟨fun h => ?_, by decide, by decide⟩
  obtain ⟨d, hd, hlt⟩ := (((h 0 [.writeReload 5, .writeControl 5, .runTimers]).2
    ⟨⟨0, 5, 0, none⟩, 0, 5, false⟩ rfl).2 ⟨⟨5, 5, 0, some 0⟩, 0, 5, false⟩ rfl).1
      0 rfl (by decide) (by decide)
  have : d = 0 := by
    have e : (runTimers 0 0 ⟨5, 5, 0, some 0⟩).1.timer = some 0 := by decide
    exact Option.some.inj (hd.symm.trans e)
  omega

/-! ## One positive scale -/

/-- The scale a control word selects. -/
def selectedScale (scale : Int) (value : BitVec 32) : Int :=
  if clkBit value = true then scale else 1000

/-- What is asked of one event: a write that sets the enable bit arms the
timer at most one period of the largest reload value ahead, and a read of the
current value returns at most the reload register. -/
def Timely (scale k : Int) (c : Clocked) : SystickEvent → Prop
  | .writeControl value => enables c.systick value = true →
      ∃ d, (writeControl scale c.now c.systick value).timer = some d ∧
        d ≤ c.now + (c.maxReload + 1) * k
  | .readCurrent => ∃ v, readCurrent scale c.now c.systick = .ok v ∧ v ≤ c.systick.reload
  | _ => True

/-- Every control write selects the scale `k`. -/
def SteadyClock (scale k : Int) : SystickEvent → Prop
  | .writeControl value => selectedScale scale value = k
  | _ => True

/-- A stopped counter is left alone, and a counter stopped by a one-shot expiry
is not enabled again. -/
def Regular (c : Clocked) (e : SystickEvent) : Prop :=
  LeavesStopped c e ∧
    ∀ value, e = .writeControl value → enables c.systick value = true → c.oneShot = false

instance (scale k : Int) (e : SystickEvent) : Decidable (SteadyClock scale k e) := by
  unfold SteadyClock
  cases e <;> infer_instance

instance (c : Clocked) (e : SystickEvent) : Decidable (LeavesStopped c e) := by
  unfold LeavesStopped
  cases e <;> infer_instance

instance (c : Clocked) (e : SystickEvent) : Decidable (Regular c e) := by
  unfold Regular
  cases e with
  | writeControl value =>
    exact decidable_of_iff' (_ ∧ (enables c.systick value = true → c.oneShot = false))
      (and_congr_right' (by simp))
  | _ => exact decidable_of_iff' _ (and_iff_left (by simp))

/-- While the counter runs its deadline is at most a period ahead, and while it
is stopped by the guest at most a period is stored. -/
structure WithinPeriod (scale k : Int) (c : Clocked) : Prop where
  armed : ArmedIffEnabled c
  timer : TimerAtTick c.systick
  reload : c.systick.reload.toNat ≤ c.maxReload
  scale : enableBit c.systick.control = true → systickScale scale c.systick = k
  running : enableBit c.systick.control = true → c.systick.tick ≤ c.now + (c.maxReload + 1) * k
  stopped : enableBit c.systick.control = false → c.oneShot = false →
    c.systick.tick ≤ (c.maxReload + 1) * k

theorem period_le {reload : BitVec 32} {k : Int} (hk : 0 < k) (hr : reload.toNat ≤ m) :
    ((reload + 1#32).toNat) * k ≤ (m + 1) * k := by
  apply Int.mul_le_mul_of_nonneg_right _ hk.le
  have : (reload + 1#32).toNat ≤ reload.toNat + 1 := by
    exact (Nat.mod_le _ _).trans (by simp)
  omega

/-- Any read on a positive scale returns at most the reload register. -/
theorem readCurrent_le {scale : Int}
    (positive : enableBit s.control = true → 0 < systickScale scale s) :
    ∃ v, readCurrent scale now s = .ok v ∧ v ≤ s.reload := by
  have least : 0 ≤ s.reload := by bv_omega
  unfold readCurrent
  cases hen : enableBit s.control
  · exact ⟨0, by simp [hen], least⟩
  have := positive hen
  simp only [and_enable_eq_zero, hen, Bool.true_eq_false, if_false]
  split
  · exact ⟨0, rfl, least⟩
  rw [if_neg (by omega)]
  refine ⟨_, rfl, ?_⟩
  split
  · exact least
  · rename_i h
    exact BitVec.not_lt.mp h

section
variable {scale k : Int} (hk : 0 < k)
include hk

/-- A reload from the present is within a period. -/
theorem systickReload_within (hs : systickScale scale s = k) (hr : s.reload.toNat ≤ m) :
    (systickReload scale now s true).tick ≤ now + (m + 1) * k := by
  have := period_le hk hr
  simp only [systickReload, modTimer, hs, if_true]
  omega

theorem writeControl_within (h : WithinPeriod scale k c) {value : BitVec 32}
    (steady : selectedScale scale value = k) (regular : Regular c (.writeControl value)) :
    WithinPeriod scale k { c with
      systick := writeControl scale c.now c.systick value
      oneShot := c.oneShot && !enables c.systick value } := by
  have nonneg : 0 ≤ (c.maxReload + 1) * k := Int.mul_nonneg (by omega) hk.le
  have scaled : ∀ s : Systick, s.control = newControl c.systick value →
      systickScale scale s = k := by
    intro s hs
    rw [systickScale_eq, hs, clkBit_newControl]
    exact steady
  have armed := (writeControl_armed_iff scale c.now c.systick value h.armed).mpr regular.1
  have timer := writeControl_timerAtTick scale c.now value h.timer
  obtain ⟨hv, ht, e⟩ | ⟨hv, ht, e⟩ | ⟨hs, hv, e⟩ | ⟨hsame, hc, e⟩ | ⟨hsame, hc, e⟩ :=
    writeControl_cases scale c.now c.systick value <;> rw [e] at armed timer ⊢
  · -- started from the stored time, which a guest write put there
    have off : enableBit c.systick.control = false := by simp_all [enables]
    have on : enableBit value = true := by simp_all [enables]
    have stored := h.stopped off (regular.2 value rfl hv)
    exact ⟨armed, timer, h.reload, fun _ => scaled _ rfl, fun _ => by dsimp only; omega,
      fun hoff => by simp [on] at hoff⟩
  · have on : enableBit value = true := by simp_all [enables]
    exact ⟨armed, timer, h.reload, fun _ => scaled _ rfl,
      fun _ => systickReload_within hk (scaled _ rfl) h.reload,
      fun hoff => by simp [systickReload, modTimer, on] at hoff⟩
  · have := h.running hs
    exact ⟨armed, timer, h.reload, fun hon => by simp [hv] at hon,
      fun hon => by simp [hv] at hon, fun _ _ => by dsimp only; omega⟩
  · -- only a running counter may change its clock source
    have on : enableBit value = true := by
      cases hb : enableBit value
      · exact absurd (regular.1 (hsame.trans hb) hb) hc
      · rfl
    exact ⟨armed, timer, h.reload, fun _ => scaled _ rfl,
      fun _ => systickReload_within hk (scaled _ rfl) h.reload,
      fun hoff => by simp [systickReload, modTimer, on] at hoff⟩
  · refine ⟨armed, timer, h.reload, fun _ => scaled _ rfl, fun hon => h.running ?_,
      fun hoff hshot => h.stopped ?_ ?_⟩
    · simpa [hsame] using hon
    · simpa [hsame] using hoff
    · have : enables c.systick value = false := by simp_all [enables]
      simpa [this] using hshot

theorem runTimers_within (h : WithinPeriod scale k c) :
    WithinPeriod scale k { c with
      systick := (runTimers scale c.now c.systick).1
      oneShot := c.oneShot || decide (due c.now c.systick ∧ c.systick.reload = 0#32) } := by
  have armed := (leavesStopped_iff scale c .runTimers h.armed).mp trivial _ rfl
  have timer := runTimers_timerAtTick scale c.now h.timer
  obtain ⟨hd, e⟩ | ⟨hd, hr, e⟩ | ⟨hd, hr, e⟩ := runTimers_cases scale c.now c.systick <;>
    rw [e] at armed timer ⊢
  · refine ⟨armed, timer, h.reload, h.scale, h.running, fun hoff hshot => h.stopped hoff ?_⟩
    simpa [hd] using hshot
  · exact ⟨armed, timer, h.reload, fun hon => by simp at hon, fun hon => by simp at hon,
      fun _ hshot => by simp [hd, hr] at hshot⟩
  · obtain ⟨d, hdeadline, hle⟩ := hd
    have on : enableBit c.systick.control = true := by rw [← h.armed, hdeadline]; rfl
    have scaled : systickScale scale
        { c.systick with control := c.systick.control ||| systickCountflag } = k := by
      rw [← h.scale on]
      simp [systickScale_eq]
    have reached := h.timer d hdeadline
    have := period_le hk h.reload
    refine ⟨armed, timer, h.reload, fun _ => scaled, fun _ => ?_, fun hoff => ?_⟩
    · simp only [systickReload, modTimer, scaled, Bool.false_eq_true, if_false]
      omega
    · simp [systickReload, modTimer, on] at hoff

theorem step_within (c : Clocked) (e : SystickEvent) (t : Clocked) (h : WithinPeriod scale k c)
    (meet : Regular c e ∧ SteadyClock scale k e) (ht : systickStep scale c e = .ok t) :
    WithinPeriod scale k t := by
  obtain ⟨regular, steady⟩ := meet
  cases e with
  | advance ns =>
    cases ht
    refine ⟨h.armed, h.timer, h.reload, h.scale, fun hon => ?_, h.stopped⟩
    have := h.running hon
    push_cast
    omega
  | readControl =>
    cases ht
    have same := enableBit_countflag c.systick.control
    refine ⟨?_, h.timer, h.reload, fun hon => ?_, fun hon => h.running ?_, fun hoff => h.stopped ?_⟩
    · exact h.armed.trans same.2.symm
    · rw [← h.scale (same.2.symm.trans hon)]
      simp [systickScale_eq, readControl]
    · exact same.2.symm.trans hon
    · exact same.2.symm.trans hoff
  | readReload => cases ht; exact h
  | readCurrent => rwa [step_readCurrent ht]
  | writeControl value => cases ht; exact writeControl_within hk h steady regular
  | writeReload value =>
    cases ht
    have grown : (c.maxReload + 1) * k ≤ ((max c.maxReload value.toNat) + 1) * k :=
      Int.mul_le_mul_of_nonneg_right (by omega) hk.le
    refine ⟨h.armed, h.timer, le_max_right _ _, h.scale, fun hon => ?_, fun hoff hshot => ?_⟩
    · have := h.running hon
      dsimp only [writeReload]
      omega
    · have := h.stopped hoff hshot
      dsimp only [writeReload]
      omega
  | writeCurrent value =>
    cases ht
    have on : enableBit c.systick.control = true := regular.1
    refine ⟨?_, fun d hd => (Option.some.inj hd).symm, h.reload, fun _ => ?_,
      fun _ => systickReload_within hk (h.scale on) h.reload, fun hoff => ?_⟩
    · exact (leavesStopped_iff scale c (.writeCurrent value) h.armed).mp on _ rfl
    · rw [← h.scale on]
      simp [systickScale_eq, writeCurrent, systickReload, modTimer]
    · simp [writeCurrent, systickReload, modTimer, on] at hoff
  | runTimers => cases ht; exact runTimers_within hk h

theorem timely_of_regular (c : Clocked) (e : SystickEvent) (h : WithinPeriod scale k c)
    (meet : Regular c e ∧ SteadyClock scale k e) : Timely scale k c e := by
  cases e <;> try trivial
  case readCurrent => exact readCurrent_le fun hon => by rw [h.scale hon]; exact hk
  case writeControl value =>
    intro hv
    have next := writeControl_within hk h meet.2 meet.1
    have on : enableBit (writeControl scale c.now c.systick value).control = true := by
      obtain ⟨_, _, e⟩ | ⟨_, _, e⟩ | ⟨hs, _, _⟩ | ⟨hsame, _, _⟩ | ⟨hsame, _, _⟩ :=
        writeControl_cases scale c.now c.systick value <;>
        simp_all [enables, systickReload, modTimer]
    obtain ⟨d, hd⟩ := Option.isSome_iff_exists.mp (next.armed.trans on)
    exact ⟨d, hd, by rw [next.timer d hd]; exact next.running on⟩

/-- With one positive scale, along every run whose events are regular, a write
that sets the enable bit arms the timer within one period of the largest reload
value, and every read of the current value returns at most the reload register. -/
theorem regular_deadlines (now : Nat) (events : List SystickEvent)
    (steady : ∀ e ∈ events, SteadyClock scale k e)
    (regular : StepsMeet (systickStep scale) Regular (.start now) events) :
    StepsMeet (systickStep scale) (Timely scale k) (.start now) events := by
  refine (regular.and_events steady).weaken (step_within hk) (timely_of_regular hk) ?_
  refine ⟨start_armedIffEnabled now, fun d hd => ?_, le_refl 0, fun hon => ?_, fun hon => ?_,
    fun _ _ => ?_⟩
  · cases hd
  · simp [Clocked.start, enableBit] at hon
  · simp [Clocked.start, enableBit] at hon
  · exact Int.mul_nonneg (by simp [Clocked.start]) hk.le

end

/-- A stop and a restart by the guest, half a period in. -/
theorem regular_deadlines_restart :
    StepsMeet (systickStep 5) (Timely 5 1000) (.start 0)
      [.writeReload 5, .writeControl 1, .advance 3000, .writeControl 0, .writeControl 1] := by
  exact regular_deadlines (by decide) _ _ (by decide) (by decide)

/-- After a one-shot expiry the deadline that expired is still stored, and the
next enabling write adds the current time to it. -/
theorem one_shot_restart_late :
    ¬ ∀ (scale k : Int) (now : Nat) (events : List SystickEvent), 0 < k →
      (∀ e ∈ events, SteadyClock scale k e) →
      StepsMeet (systickStep scale) (Timely scale k) (.start now) events := by
  intro h
  have all := h 5 1000 5000 [.writeControl 1, .advance 1000, .runTimers, .writeControl 1]
    (by decide) (by decide)
  have last := (((all.2 ⟨⟨1, 0, 6000, some 6000⟩, 5000, 0, false⟩ rfl).2
    ⟨⟨1, 0, 6000, some 6000⟩, 6000, 0, false⟩ rfl).2
    ⟨⟨0x10000, 0, 6000, none⟩, 6000, 0, true⟩ rfl).1
  obtain ⟨d, hd, hle⟩ := last (by decide)
  have late : (writeControl 5 6000 ⟨0x10000, 0, 6000, none⟩ 1).timer = some 12000 := by decide
  have : d = 12000 := Option.some.inj (hd.symm.trans late)
  simp only [this] at hle
  omega

end QemuStm32.Nvic
