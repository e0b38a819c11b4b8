import QemuStm32.Stm32.Outputs

/-!
# The user button on pin 0 of GPIO A

The button forwards each byte of its character device to the port as a level
change. The port drops a change that arrives while the pin is not an input
with a pull, and no later configuration brings it back.
-/

namespace QemuStm32.Stm32

open Runs

/-- GPIO A and the button wired to its input 0 by `stm32l152rbt6_init`. -/
structure Board where
  gpio : GpioState
  buttonState : BitVec 8

/-- `stm32_receive`: each byte becomes the button state and is raised on the
line to pin 0. -/
def stm32Receive (b : Board) : List (BitVec 8) → Except Fault Board
  | [] => .ok b
  | etat :: rest => do
    let gpio ← stm32GpioInRecv b.gpio 0 etat.toNat
    stm32Receive { gpio := gpio, buttonState := etat } rest

inductive BoardEvent
  | receive (buf : List (BitVec 8))
  | write (offset : Nat) (value : BitVec 32)

def boardStep (b : Board) : BoardEvent → Except Fault Board
  | .receive buf => stm32Receive b buf
  | .write offset value => do
    let gpio ← stm32GpioWrite b.gpio offset value
    .ok { b with gpio := gpio }

/-- The board after `stm32l152rbt6_init`: port A reset, button released. -/
def boardInit : Board := ⟨stm32GpioInit 'A', 0⟩

/-- Pin 0 is an input with a pull. -/
def Listens (mode pupd : BitVec 32) : Prop :=
  mode &&& pinMask 0 = 0#32 ∧ pupd &&& pinMask 0 ≠ 0#32

instance (mode pupd : BitVec 32) : Decidable (Listens mode pupd) :=
  inferInstanceAs (Decidable (_ ∧ _))

/-- What happened to pin 0, told without the port: its configuration, the last
byte of all, the last byte that came while the pin listened, and whether the
last byte came while it did not. -/
structure PinHistory where
  mode : BitVec 32
  pupd : BitVec 32
  last : BitVec 8
  heard : BitVec 8
  missed : Bool
  deriving DecidableEq, Repr

def PinHistory.byte (h : PinHistory) (etat : BitVec 8) : PinHistory :=
  if Listens h.mode h.pupd then { h with last := etat, heard := etat, missed := false }
  else { h with last := etat, missed := true }

def PinHistory.note (h : PinHistory) : BoardEvent → PinHistory
  | .receive buf => buf.foldl PinHistory.byte h
  | .write offset value =>
    { h with
      mode := if offset = 0x00 then value else h.mode
      pupd := if offset = 0x0C then value else h.pupd }

def PinHistory.start : PinHistory := ⟨0xA8000000, 0x64000000, 0, 0, false⟩

/-- The board and the history agree. -/
structure Agrees (b : Board) (h : PinHistory) : Prop where
  mode : b.gpio.mode = h.mode
  pupd : b.gpio.pupd = h.pupd
  last : b.buttonState = h.last
  heard : b.gpio.ind.getLsbD 0 = decide (h.heard ≠ 0#8)
  current : h.missed = false → h.heard = h.last

theorem update_frame (s : GpioState) :
    (stm32GpioUpdate s).mode = s.mode ∧ (stm32GpioUpdate s).pupd = s.pupd ∧
      (stm32GpioUpdate s).ind = s.ind := by
  rw [stm32GpioUpdate_eq]
  exact ⟨rfl, rfl, rfl⟩

/-- A store changes the mode and pull registers only at their own offsets and
never the input register. -/
theorem write_config {s t : GpioState} {offset : Nat} {value : BitVec 32}
    (h : stm32GpioWrite s offset value = .ok t) :
    t.mode = (if offset = 0x00 then value else s.mode) ∧
      t.pupd = (if offset = 0x0C then value else s.pupd) ∧ t.ind = s.ind := by
  unfold stm32GpioWrite at h
  split at h <;> cases h
  case h_6 => simpa using update_frame _
  case h_7 => simpa using update_frame _
  all_goals simp

/-- A level on input 0 is stored when the pin listens and dropped otherwise. -/
theorem inRecv_zero (s : GpioState) (level : Int) :
    ∃ t, stm32GpioInRecv s 0 level = .ok t ∧ t.mode = s.mode ∧ t.pupd = s.pupd ∧
      t.ind.getLsbD 0 =
        if Listens s.mode s.pupd then decide (level ≠ 0) else s.ind.getLsbD 0 := by
  unfold stm32GpioInRecv
  rw [if_pos (by decide)]
  by_cases hp : s.pupd &&& pinMask 0 = 0#32
  · have deaf : ¬ Listens s.mode s.pupd := fun h => h.2 hp
    exact ⟨s, by simp [hp, deaf]⟩
  by_cases hm : s.mode &&& pinMask 0 = 0#32
  · have listens : Listens s.mode s.pupd := ⟨hm, hp⟩
    by_cases hl : level = 0
    · refine ⟨{ s with ind := s.ind &&& ~~~(1#16 <<< 0) }, ?_, rfl, rfl, ?_⟩
      · simp [hp, hm, hl]
      · rw [if_pos listens]
        simp [hl]
    · refine ⟨{ s with ind := s.ind ||| (1#16 <<< 0) }, ?_, rfl, rfl, ?_⟩
      · simp [hp, hm, hl]
      · rw [if_pos listens]
        simp [hl]
  · have deaf : ¬ Listens s.mode s.pupd := fun h => hm h.1
    exact ⟨s, by simp [hp, hm, deaf]⟩

variable {t b : Board} {h : PinHistory}

theorem receive_agrees (buf : List (BitVec 8)) (agree : Agrees b h)
    (ht : stm32Receive b buf = .ok t) : Agrees t (buf.foldl PinHistory.byte h) := by
  induction buf generalizing b h with
  | nil => cases ht; exact agree
  | cons etat rest ih =>
    obtain ⟨g, hg, hmode, hpupd, hind⟩ := inRecv_zero b.gpio etat.toNat
    simp only [stm32Receive, hg] at ht
    apply ih _ ht
    have nonzero : decide ((etat.toNat : Int) ≠ 0) = decide (etat ≠ 0#8) := by
      rw [decide_eq_decide, Int.natCast_ne_zero, ne_eq, ne_eq, BitVec.toNat_eq]
      rfl
    rw [agree.mode, agree.pupd, nonzero] at hind
    unfold PinHistory.byte
    by_cases hl : Listens h.mode h.pupd
    · rw [if_pos hl] at hind ⊢
      exact ⟨hmode.trans agree.mode, hpupd.trans agree.pupd, rfl, hind, fun _ => rfl⟩
    · rw [if_neg hl] at hind ⊢
      exact ⟨hmode.trans agree.mode, hpupd.trans agree.pupd, rfl, hind.trans agree.heard,
        fun hm => by simp at hm⟩

theorem step_agrees (agree : Agrees b h) (e : BoardEvent) (ht : boardStep b e = .ok t) :
    Agrees t (h.note e) := by
  cases e with
  | receive buf => exact receive_agrees buf agree ht
  | write offset value =>
    simp only [boardStep] at ht
    cases hw : stm32GpioWrite b.gpio offset value with
    | error f => simp [hw, Bind.bind, Except.bind] at ht
    | ok g =>
      obtain ⟨hmode, hpupd, hind⟩ := write_config hw
      simp only [hw, Bind.bind, Except.bind, Except.ok.injEq] at ht
      subst ht
      exact ⟨by rw [hmode, agree.mode]; rfl, by rw [hpupd, agree.pupd]; rfl, agree.last,
        by rw [hind]; exact agree.heard, agree.current⟩

theorem run_agrees (agree : Agrees b h) {events : List BoardEvent}
    (ht : run boardStep b events = .ok t) : Agrees t (events.foldl PinHistory.note h) := by
  induction events generalizing b h with
  | nil => cases ht; exact agree
  | cons e es ih =>
    obtain ⟨u, hu, ht⟩ := run_cons_ok.mp ht
    exact ih (step_agrees agree e hu) ht

theorem boardInit_agrees : Agrees boardInit PinHistory.start :=
  ⟨rfl, rfl, rfl, by decide, fun _ => rfl⟩

/-- In every reachable state the input bit of pin 0 tells whether the last byte
that came while the pin was an input with a pull was non-zero. It therefore
tells the current button state whenever the last byte came in time. -/
theorem input_bit_last_heard (events : List BoardEvent) (b : Board)
    (reached : run boardStep boardInit events = .ok b) :
    let h := events.foldl PinHistory.note PinHistory.start
    b.gpio.ind.getLsbD 0 = decide (h.heard ≠ 0#8) ∧
      (h.missed = false → b.gpio.ind.getLsbD 0 = decide (b.buttonState ≠ 0#8)) := by
  have agree := run_agrees boardInit_agrees reached
  refine ⟨agree.heard, fun hm => ?_⟩
  rw [agree.heard, agree.current hm, agree.last]

/-- A press, a release and a press, the first one before the pull was set. -/
theorem input_bit_after_presses :
    ∃ b, run boardStep boardInit
        [.receive [1], .write 0x0C 0x1, .receive [0, 1]] = .ok b ∧
      b.gpio.ind.getLsbD 0 = true := by
  refine ⟨_, rfl, ?_⟩
  rw [(input_bit_last_heard [.receive [1], .write 0x0C 0x1, .receive [0, 1]] _ rfl).1]
  decide

/-- A press before the guest sets the pull is lost: the pin then listens, the
button is down and the input bit is clear. -/
theorem press_before_pull_lost :
    ¬ ∀ (events : List BoardEvent) (b : Board), run boardStep boardInit events = .ok b →
      Listens b.gpio.mode b.gpio.pupd →
      b.gpio.ind.getLsbD 0 = decide (b.buttonState ≠ 0#8) := by
  intro h
  have := h [.receive [1], .write 0x0C 0x1] _ rfl (by decide)
  revert this
  decide

end QemuStm32.Stm32
