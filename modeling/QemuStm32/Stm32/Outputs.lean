import QemuStm32.Stm32.Gpio
import QemuStm32.Lib.Runs

/-!
# Output lines of a GPIO port

When the level last driven on a pin equals its bit of the output data
register. The update loop stops at pin 7 and a mode write drives nothing, so
the law holds of a run exactly when the run avoids both.
-/

namespace QemuStm32.Stm32

open Runs

/-- What reaches a port: a guest store, or a level on one of its input lines. -/
inductive GpioEvent
  | write (offset : Nat) (value : BitVec 32)
  | inRecv (numPin : Nat) (level : Int)

section
variable (s : GpioState)

def gpioStep : GpioEvent → Except Fault GpioState
  | .write offset value => stm32GpioWrite s offset value
  | .inRecv numPin level => stm32GpioInRecv s numPin level

/-- The level a line shows: the one last driven, low if there was none. -/
def driven (i : Nat) : Bool := (s.irqOut i).getD false

/-- Every pin that is not in input mode shows its bit of the output register. -/
def OutputsFollow : Prop :=
  ∀ i, i < nbPin → s.mode &&& pinMask i ≠ 0#32 → driven s i = s.outd.getLsbD i

/-- A write to the data or bit set register asks for no high level on a pin
from 8 on that is not in input mode, and a mode write releases a pin from
input mode only while the pin already shows its output bit. -/
def KeepsOutputs : GpioEvent → Prop
  | .write offset value =>
    (offset = 0x14 ∨ offset = 0x18 → ∀ i, i < nbPin → 8 ≤ i → s.mode &&& pinMask i ≠ 0#32 →
      value.getLsbD i = false) ∧
    (offset = 0x00 → ∀ i, i < nbPin → s.mode &&& pinMask i = 0#32 → value &&& pinMask i ≠ 0#32 →
      driven s i = s.outd.getLsbD i)
  | .inRecv _ _ => True

end

/-- Holds of every port: no update is pending, and no line from 8 on was ever
driven. -/
structure GpioSettled (s : GpioState) : Prop where
  synced : s.outdOld = s.outd
  undriven : ∀ i, 8 ≤ i → s.irqOut i = none

theorem init_settled (id : Char) : GpioSettled (stm32GpioInit id) :=
  ⟨rfl, fun _ _ => rfl⟩

theorem init_outputsFollow (id : Char) : OutputsFollow (stm32GpioInit id) := by
  intro i _ _
  simp [driven, stm32GpioInit, stm32GpioReset]

theorem update_settled {s : GpioState} (h : GpioSettled s) (o : BitVec 16) :
    GpioSettled (stm32GpioUpdate { s with outd := o }) := by
  rw [stm32GpioUpdate_eq]
  refine ⟨rfl, fun i hi => ?_⟩
  have : ¬ i < 8 := by omega
  simp only [this, false_and, if_false]
  exact h.undriven i hi

theorem inRecv_frame {s t : GpioState} {numPin : Nat} {level : Int}
    (h : stm32GpioInRecv s numPin level = .ok t) : ∃ ind, t = { s with ind := ind } := by
  unfold stm32GpioInRecv at h
  split at h
  · dsimp only at h
    split at h
    · exact ⟨s.ind, by cases h; rfl⟩
    · split at h
      · exact ⟨s.ind, by cases h; rfl⟩
      · split at h <;> exact ⟨_, by cases h; rfl⟩
  · cases h

/-- The four things an accepted store can do. -/
theorem write_cases {s t : GpioState} {offset : Nat} {value : BitVec 32}
    (h : stm32GpioWrite s offset value = .ok t) :
    (offset = 0x00 ∧ t = { s with mode := value }) ∨
    (offset = 0x14 ∧ t = stm32GpioUpdate { s with outd := value.setWidth 16 }) ∨
    (offset = 0x18 ∧ t = stm32GpioUpdate { s with outd := s.outd ||| value.setWidth 16 }) ∨
    ((offset ≠ 0x00 ∧ offset ≠ 0x14 ∧ offset ≠ 0x18) ∧ t.mode = s.mode ∧ t.outd = s.outd ∧
      t.outdOld = s.outdOld ∧ t.irqOut = s.irqOut) := by
  unfold stm32GpioWrite at h
  split at h <;> cases h
  case h_1 => exact .inl ⟨rfl, rfl⟩
  case h_6 => exact .inr (.inl ⟨rfl, rfl⟩)
  case h_7 => exact .inr (.inr (.inl ⟨rfl, by rw [bsrBits_eq]⟩))
  all_goals exact .inr (.inr (.inr (by simp)))

theorem step_settled (s : GpioState) (e : GpioEvent) (t : GpioState) (h : GpioSettled s)
    (ht : gpioStep s e = .ok t) : GpioSettled t := by
  cases e with
  | inRecv numPin level =>
    obtain ⟨ind, rfl⟩ := inRecv_frame ht
    exact ⟨h.synced, h.undriven⟩
  | write offset value =>
    obtain ⟨_, rfl⟩ | ⟨_, rfl⟩ | ⟨_, rfl⟩ | ⟨_, _, ho, hold, hirq⟩ := write_cases ht
    · exact ⟨h.synced, h.undriven⟩
    · exact update_settled h _
    · exact update_settled h _
    · exact ⟨by rw [ho, hold, h.synced], fun i hi => by rw [hirq, h.undriven i hi]⟩

/-- Storing `o` in the output register and updating keeps the law exactly when
`o` asks for no high level on a pin the loop does not reach. -/
theorem update_outputsFollow_iff {s : GpioState} (h : GpioSettled s) (hs : OutputsFollow s)
    (o : BitVec 16) :
    OutputsFollow (stm32GpioUpdate { s with outd := o }) ↔
      ∀ i, i < nbPin → 8 ≤ i → s.mode &&& pinMask i ≠ 0#32 → o.getLsbD i = false := by
  rw [stm32GpioUpdate_eq]
  constructor
  · intro hf i hi h8 hm
    have := hf i hi hm
    simpa [driven, show ¬ i < 8 by omega, h.undriven i h8] using this.symm
  · intro hc i hi hm
    have same := hs i hi hm
    simp only [driven, h.synced] at same ⊢
    by_cases h8 : i < 8
    · by_cases hch : s.outd.getLsbD i = o.getLsbD i
      · simp [hch, same]
      · simp [h8, hch, hm]
    · simp [h8, h.undriven i (by omega), hc i hi (by omega) hm]

/-- For one event, the condition is exactly what keeps the law. -/
theorem keepsOutputs_iff (s : GpioState) (e : GpioEvent) (h : GpioSettled s)
    (hs : OutputsFollow s) :
    KeepsOutputs s e ↔ ∀ t, gpioStep s e = .ok t → OutputsFollow t := by
  cases e with
  | inRecv numPin level =>
    refine ⟨fun _ t ht => ?_, fun _ => trivial⟩
    obtain ⟨ind, rfl⟩ := inRecv_frame ht
    exact hs
  | write offset value =>
    -- pins from 8 on that are not inputs show low, so their output bit is clear
    have clear : ∀ i, i < nbPin → 8 ≤ i → s.mode &&& pinMask i ≠ 0#32 →
        s.outd.getLsbD i = false := by
      intro i hi h8 hm
      simpa [driven, h.undriven i h8] using (hs i hi hm).symm
    have low : ∀ i, i < nbPin → (value.setWidth 16).getLsbD i = value.getLsbD i := by
      intro i hi
      simp only [nbPin] at hi
      simp [show i < 16 by omega]
    constructor
    · rintro ⟨hdata, hmode⟩ t ht
      obtain ⟨rfl, rfl⟩ | ⟨rfl, rfl⟩ | ⟨rfl, rfl⟩ | ⟨_, hm, ho, _, hirq⟩ := write_cases ht
      · intro i hi hv
        by_cases hm : s.mode &&& pinMask i = 0#32
        · exact hmode rfl i hi hm hv
        · exact hs i hi hm
      · rw [update_outputsFollow_iff h hs]
        intro i hi h8 hm
        rw [low i hi]
        exact hdata (.inl rfl) i hi h8 hm
      · rw [update_outputsFollow_iff h hs]
        intro i hi h8 hm
        rw [BitVec.getLsbD_or, low i hi, clear i hi h8 hm, hdata (.inr rfl) i hi h8 hm]
        rfl
      · intro i hi hmi
        rw [hm] at hmi
        simpa only [driven, hirq, ho] using hs i hi hmi
    · intro hall
      refine ⟨?_, ?_⟩
      · rintro (rfl | rfl) i hi h8 hm
        · have hf := (update_outputsFollow_iff h hs _).mp (hall _ rfl) i hi h8 hm
          rwa [low i hi] at hf
        · have hf := hall _ (show gpioStep s (.write 0x18 value) = .ok _ from rfl)
          rw [bsrBits_eq] at hf
          have hf := (update_outputsFollow_iff h hs _).mp hf i hi h8 hm
          rw [BitVec.getLsbD_or, low i hi, Bool.or_eq_false_iff] at hf
          exact hf.2
      · rintro rfl i hi _ hv
        exact hall _ rfl i hi hv

/-- Along any run from reset, the pins that are not in input mode show their
output bits in every state exactly when every event of the run meets
`KeepsOutputs`. -/
theorem outputs_follow_along_iff (id : Char) (events : List GpioEvent) :
    Always gpioStep OutputsFollow (stm32GpioInit id) events ↔
      StepsMeet gpioStep KeepsOutputs (stm32GpioInit id) events :=
  always_iff_stepsMeet step_settled keepsOutputs_iff (init_settled id) (init_outputsFollow id)

/-- Pin 8 as an output whose data bit is set: the line was never driven. -/
theorem output_pin_eight_stale :
    ¬ ∀ (id : Char) (events : List GpioEvent) (s : GpioState),
      run gpioStep (stm32GpioInit id) events = .ok s → OutputsFollow s := by
  intro h
  have hf := h 'A' [.write 0x00 0x00010000, .write 0x14 0x0100] _ rfl 8 (by decide) (by decide)
  revert hf
  decide

end QemuStm32.Stm32
