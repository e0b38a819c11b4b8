import QemuStm32.Gic.Nesting
import QemuStm32.Nvic.Decision

/-!
# Accesses between exceptions

What the guest and the devices do to the NVIC between two exceptions changes
interrupt registers and the decision, never the list of active interrupts. The
interrupts 16 to 31 of the controller do not exist on the NVIC: nothing enables
them, so none is ever pending for the CPU.
-/

namespace QemuStm32.Nvic

open Gic Runs

/-- The interrupts 16 to 31 are disabled. -/
def GapOff (g : State armv7m) : Prop :=
  ∀ i, 16 ≤ i → i < 32 → (g.irqState i).enabled = 0

/-- Register changes and updates of the decision, in any order. -/
inductive Quiet (g : State armv7m) : State armv7m → Prop
  | refl : Quiet g g
  | registers {u v : State armv7m} (h : Quiet g u) (frame : RegisterFrame u v)
    (gap : GapOff u → GapOff v) : Quiet g v
  | update {u : State armv7m} (h : Quiet g u) : Quiet g (gicUpdate u)

namespace Quiet

variable {g u v : State armv7m}

theorem trans (h : Quiet g u) (h' : Quiet u v) : Quiet g v := by
  induction h' with
  | refl => exact h
  | registers _ frame gap ih => exact ih.registers frame gap
  | update _ ih => exact ih.update

theorem of_registers (frame : RegisterFrame g u) (gap : GapOff g → GapOff u) : Quiet g u :=
  refl.registers frame gap

theorem runningIrq (h : Quiet g u) : u.runningIrq = g.runningIrq := by
  induction h with
  | refl => rfl
  | registers _ frame _ ih => exact frame.runningIrq.trans ih
  | update _ ih => rw [gicUpdate_runningIrq]; exact ih

theorem lastActive (h : Quiet g u) : u.lastActive = g.lastActive := by
  induction h with
  | refl => rfl
  | registers _ frame _ ih => exact frame.lastActive.trans ih
  | update _ ih => rw [gicUpdate_lastActive]; exact ih

end Quiet

/-! ## One register -/

variable {g u : State armv7m} {irq offset : Nat} {f : State armv7m → Nat → State armv7m}
  {s t : NvicState} {scale : Int} {value : BitVec 32}

theorem modify_gap {f : IrqState armv7m.ncpu → IrqState armv7m.ncpu}
    (keeps : 16 ≤ irq → irq < 32 → (g.irqState irq).enabled = 0 → (f (g.irqState irq)).enabled = 0)
    (off : GapOff g) : GapOff (g.modify irq f) := by
  intro i low high
  by_cases hi : i = irq
  · subst hi
    simp only [State.modify, set_same]
    exact keeps low high (off i low high)
  · simp only [State.modify, set_other _ _ hi]
    exact off i low high

section
variable (g : State armv7m)

section
variable (irq : Nat)

theorem modify_quiet (f : IrqState armv7m.ncpu → IrqState armv7m.ncpu)
    (keeps : ∀ q, (f q).enabled = q.enabled) : Quiet g (g.modify irq f) :=
  .of_registers (modify_frame g irq f) (modify_gap fun _ _ h => (keeps _).trans h)

variable (cm : BitVec armv7m.ncpu)

theorem gicSetPending_quiet : Quiet g (gicSetPending g irq cm) := modify_quiet g irq _ fun _ => rfl

theorem gicClearPending_quiet :
    Quiet g (gicClearPending g irq cm) := modify_quiet g irq _ fun _ => rfl

theorem gicSetLevel_quiet : Quiet g (gicSetLevel g irq cm) := modify_quiet g irq _ fun _ => rfl

theorem gicClearLevel_quiet : Quiet g (gicClearLevel g irq cm) := modify_quiet g irq _ fun _ => rfl

end

theorem foldl_quiet (step : ∀ g i, Quiet g (f g i)) (l : List Nat) (g : State armv7m) :
    Quiet g (l.foldl f g) := by
  induction l generalizing g with
  | nil => exact .refl
  | cons i l ih => exact (step g i).trans (ih (f g i))

theorem forBits_quiet (step : ∀ g i, Quiet g (f g i)) (n : Nat) (value : BitVec 32)
    (g : State armv7m) : Quiet g (forBits n value f g) := by
  refine foldl_quiet (fun g i => ?_) _ g
  split
  · exact step g i
  · exact .refl

/-- The set-enable registers of the NVIC start at interrupt 32. -/
theorem setEnable_quiet (above : 32 ≤ irq) (g : State armv7m) (i : Nat) :
    Quiet g (setEnable 0 irq g i) := by
  have enable cm : Quiet g (gicSetEnabled g (irq + i) cm) :=
    .of_registers (modify_frame _ _ _) (modify_gap fun _ high => absurd high (by omega))
  unfold setEnable
  dsimp only
  generalize (if irq < 32 then cpuMask armv7m 0 else allCpuMask armv7m) = cm
  generalize (if irq < 32 then cpuMask armv7m 0 else gicTarget g irq) = mask
  split
  · exact (enable cm).trans (gicSetPending_quiet _ _ _)
  · exact enable cm

theorem clearEnable_quiet (irq : Nat) (g : State armv7m) (i : Nat) :
    Quiet g (clearEnable 0 irq g i) := by
  refine .of_registers (clearEnable_frame 0 irq g i) fun off => ?_
  unfold clearEnable
  refine modify_gap (fun _ _ zero => ?_) off
  rw [zero]
  exact BitVec.zero_and

theorem setPriority_quiet (irq value : Nat) : Quiet g (setPriority g irq 0 value) := by
  refine .of_registers (setPriority_frame g irq 0 value) fun off => ?_
  unfold setPriority
  split <;> exact off

/-- Every accepted outcome of `r` is reached quietly. -/
def Quietly (r : Except Fault (State armv7m)) : Prop :=
  ∀ u, r = .ok u → Quiet g u

end

theorem Quietly.ok (h : Quiet g u) : Quietly g (.ok u) := by
  intro v hv
  obtain rfl := Except.ok.inj hv
  exact h

theorem Quietly.bad (g : State armv7m) (offset : Nat) : Quietly g (badWrite offset) := nofun

theorem Quietly.ite {p : Prop} [Decidable p] {a b : Except Fault (State armv7m)}
    (ha : p → Quietly g a) (hb : ¬ p → Quietly g b) : Quietly g (if p then a else b) := by
  split
  · exact ha ‹p›
  · exact hb ‹¬ p›

theorem Quietly.bind {r : Except Fault (State armv7m)}
    {f : State armv7m → Except Fault (State armv7m)} (hr : Quietly g r)
    (hf : ∀ u, Quietly u (f u)) : Quietly g (r >>= f) := by
  intro v hv
  obtain ⟨u, hu, hv⟩ := bind_ok_iff.mp hv
  exact (hr u hu).trans (hf u v hv)

section
variable (g : State armv7m) (offset : Nat) (value : BitVec 32)

theorem writeRegister_quiet : Quietly g (writeRegister g 0 offset value) := by
  have base : baseIrq armv7m = 32 := rfl
  repeat' refine Quietly.ite (fun _ => ?_) (fun _ => ?_)
  all_goals try exact Quietly.bad g offset
  · contradiction
  · contradiction
  · exact .ok (forBits_quiet (setEnable_quiet (by omega)) _ _ g)
  · exact .ok (forBits_quiet (clearEnable_quiet _) _ _ g)
  · exact .ok (forBits_quiet (fun _ _ => gicSetPending_quiet _ _ _) _ _ g)
  · exact .ok (forBits_quiet (fun _ _ => gicClearPending_quiet _ _ _) _ _ g)
  · exact .ok (setPriority_quiet g _ _)
  all_goals simp_all [armv7m]

theorem gicDistWriteb_quiet : Quietly g (gicDistWriteb g 0 offset value) :=
  (writeRegister_quiet g offset value).bind fun _ => .ok Quiet.refl.update

theorem gicDistWritew_quiet : Quietly g (gicDistWritew g 0 offset value) :=
  (gicDistWriteb_quiet g offset _).bind fun u => gicDistWriteb_quiet u _ _

theorem gicDistWritel_quiet : Quietly g (gicDistWritel g 0 offset value) := by
  refine Quietly.ite (fun _ => Quietly.ite (fun _ => ?_) fun _ => nofun) fun _ => ?_
  · exact .ok (gicSetPending_quiet g _ _).update
  · exact (gicDistWritew_quiet g offset _).bind fun u => gicDistWritew_quiet u _ _

theorem gicSetPendingPrivate_quiet (irq : Nat) : Quietly g (gicSetPendingPrivate g 0 irq) := by
  refine Quietly.ite (fun _ => Quietly.ite (fun _ => .ok .refl) fun _ => ?_) fun _ => nofun
  exact .ok (gicSetPending_quiet g irq _).update

theorem gicSetIrq_quiet (irq : Nat) (level : Int) : Quietly g (gicSetIrq g irq level) := by
  have raised := gicSetLevel_quiet g (irq + 32) (allCpuMask armv7m)
  refine Quietly.ite (fun _ => Quietly.ite (fun _ => .ok .refl) fun _ => ?_) fun _ => nofun
  refine Quietly.ite (fun _ => Quietly.ite (fun _ => ?_) fun _ => ?_) fun _ => ?_
  · exact .ok (raised.trans (gicSetPending_quiet _ _ _)).update
  · exact .ok raised.update
  · exact .ok (gicClearLevel_quiet g _ _).update

theorem handlerControl_quiet : Quiet g (handlerControl g value) := by
  have enable g {irq : Nat} bit (low : irq < 16) :
      Quiet g (g.modify irq fun q => { q with enabled := bit }) :=
    .of_registers (modify_frame _ _ _) (modify_gap fun low' => absurd low (by omega))
  exact (enable g _ (by decide)).trans ((enable _ _ (by decide)).trans (enable _ _ (by decide)))

end

theorem writeHandlerPriority_quiet (s : NvicState) (irq : Nat) (value : BitVec 32) :
    Quiet s.gic (writeHandlerPriority s irq value).gic := by
  exact (foldl_quiet (fun g i => setPriority_quiet g _ _) _ s.gic).update

/-! ## The NVIC -/

theorem armv7mNvicSetPending_quiet (h : armv7mNvicSetPending s irq = .ok t) :
    Quiet s.gic t.gic := by
  obtain ⟨g, hg, h⟩ := bind_ok_iff.mp h
  cases h
  exact gicSetPendingPrivate_quiet s.gic _ g hg

theorem nvicRunTimers_quiet (h : nvicRunTimers scale s = .ok t) : Quiet s.gic t.gic := by
  unfold nvicRunTimers at h
  dsimp only at h
  split at h
  · have quiet := armv7mNvicSetPending_quiet h
    exact quiet
  · cases h
    exact .refl

theorem writePair_quiet {set clear : Nat} (h : writePair s value set clear irq = .ok t) :
    Quiet s.gic t.gic := by
  unfold writePair at h
  split at h
  · exact armv7mNvicSetPending_quiet h
  split at h
  · cases h
    have cleared := modify_quiet s.gic irq (fun q => { q with pending := 0 }) fun _ => rfl
    exact cleared.update
  · cases h
    exact .refl

theorem writeControlState_quiet (h : writeControlState s value = .ok t) : Quiet s.gic t.gic := by
  obtain ⟨u, hu, h⟩ := bind_ok_iff.mp h
  obtain ⟨v, hv, h⟩ := bind_ok_iff.mp h
  have first : Quiet s.gic u.gic := by
    split at hu
    · exact armv7mNvicSetPending_quiet hu
    · cases hu
      exact .refl
  exact (first.trans (writePair_quiet hv)).trans (writePair_quiet h)

theorem nvicWritel_quiet (h : nvicWritel scale s offset value = .ok t) : Quiet s.gic t.gic := by
  unfold nvicWritel at h
  split at h
  · cases h; exact .refl
  · cases h; exact .refl
  · cases h; exact .refl
  · exact writeControlState_quiet h
  · cases h; exact .refl
  · rw [writeResetControl_same h]; exact .refl
  · cases h; exact writeHandlerPriority_quiet s 4 value
  · cases h; exact writeHandlerPriority_quiet s 8 value
  · cases h; exact writeHandlerPriority_quiet s 12 value
  · cases h; exact handlerControl_quiet s.gic value
  · cases h

theorem nvicDistWritel_quiet (h : nvicDistWritel scale s offset value = .ok t) :
    Quiet s.gic t.gic := by
  unfold nvicDistWritel at h
  split at h
  · exact nvicWritel_quiet h
  · obtain ⟨g, hg, h⟩ := bind_ok_iff.mp h
    cases h
    exact gicDistWritel_quiet s.gic offset value g hg

/-- The events that only `do_interrupt_v7m` causes. -/
def NvicEvent.ofCpu : NvicEvent → Bool
  | .acknowledge | .complete _ => true
  | _ => false

theorem nvicStep_quiet {e : NvicEvent} (access : e.ofCpu = false) (h : nvicStep scale s e = .ok t) :
    Quiet s.gic t.gic := by
  cases e with
  | advance ns => cases h; exact .refl
  | setIrq irq level =>
    obtain ⟨g, hg, h⟩ := bind_ok_iff.mp h
    cases h
    exact gicSetIrq_quiet s.gic irq level g hg
  | setPending irq => exact armv7mNvicSetPending_quiet h
  | acknowledge | complete irq => cases access
  | readb offset | readw offset =>
    obtain ⟨_, _, h⟩ := bind_ok_iff.mp h
    cases h; exact .refl
  | readl offset =>
    obtain ⟨⟨value, u⟩, hu, h⟩ := bind_ok_iff.mp h
    cases h
    rw [readl_gic hu]
    exact .refl
  | writeb offset value =>
    obtain ⟨g, hg, h⟩ := bind_ok_iff.mp h
    cases h
    exact gicDistWriteb_quiet s.gic offset _ g hg
  | writew offset value =>
    obtain ⟨g, hg, h⟩ := bind_ok_iff.mp h
    cases h
    exact gicDistWritew_quiet s.gic offset _ g hg
  | writel offset value => exact nvicDistWritel_quiet h
  | runTimers => exact nvicRunTimers_quiet h

/-! ## What stays true -/

/-- Not one of the sixteen interrupts that do not exist. -/
def OnNvic (irq : Nat) : Prop := irq < 16 ∨ 32 ≤ irq

/-- The interrupt numbers the NVIC records are in range and exist, and those that
do not exist are disabled. -/
structure Sound (g : State armv7m) : Prop where
  inRange : InRange g
  gap : GapOff g
  pending : OnNvic (g.currentPending 0)
  running : OnNvic (g.runningIrq 0)
  links : ∀ i, OnNvic (g.next 0 i)

/-- The decision is never for a disabled interrupt. -/
theorem decision_gap (off : GapOff g) : OnNvic (decision g 0).1 := by
  unfold decision OnNvic
  split
  · obtain ⟨e, _⟩ | ⟨k, e, best, _⟩ := findBest_spec g 0 <;> rw [e]
    · exact .inr (show 32 ≤ 1023 by decide)
    · by_contra gap
      have zero := off k (by omega) (by omega)
      have enabled := best.1.2.1
      simp [gicTestEnabled, zero] at enabled
  · exact .inr (by decide)

theorem gicUpdate_pending (g : State armv7m) :
    (gicUpdate g).currentPending 0 = (decision g 0).1 := by
  have e : (gicUpdate g).currentPending 0 = (cached (gicUpdate g) 0).1 := rfl
  rw [e, cached_gicUpdate g (by decide), if_neg (not_behind_zero g)]

theorem gicUpdate_gap (off : GapOff g) : GapOff (gicUpdate g) := by
  rw [gicUpdate_frame]
  exact off

/-- A state about to be updated. -/
theorem Sound.of_update (inRange : InRange (gicUpdate g)) (off : GapOff g)
    (running : OnNvic (g.runningIrq 0)) (links : ∀ i, OnNvic (g.next 0 i)) :
    Sound (gicUpdate g) := by
  refine ⟨inRange, gicUpdate_gap off, ?_, ?_, ?_⟩
  · rw [gicUpdate_pending]
    exact decision_gap off
  · rw [gicUpdate_runningIrq]
    exact running
  · rw [gicUpdate_next]
    exact links

theorem Sound.quiet (h : Sound g) (quiet : Quiet g u) : Sound u := by
  induction quiet with
  | refl => exact h
  | registers _ frame gap ih =>
    refine ⟨ih.inRange.frame frame, gap ih.gap, ?_, ?_, ?_⟩
    · rw [frame.currentPending]
      exact ih.pending
    · rw [frame.runningIrq]
      exact ih.running
    · rw [frame.next]
      exact ih.links
  | update _ ih => exact .of_update ih.inRange.update ih.gap ih.running ih.links

theorem OnNvic.link {next : Nat → Nat} (links : ∀ i, OnNvic (next i)) {value : Nat}
    (hv : OnNvic value) (irq i : Nat) : OnNvic (Function.update next irq value i) := by
  by_cases hi : i = irq
  · rw [hi, Function.update_self]
    exact hv
  · rw [Function.update_of_ne hi]
    exact links i

theorem gicAcknowledgeIrq_sound (h : Sound g) : Sound (gicAcknowledgeIrq g 0).2 := by
  have inRange := gicAcknowledgeIrq_inRange h.inRange 0
  unfold gicAcknowledgeIrq at inRange ⊢
  dsimp only
  split
  · exact h
  rename_i taken
  rw [if_neg taken] at inRange
  have cleared g' off irq cm :
      GapOff (gicClearPending g' irq cm) := modify_gap (fun _ _ zero => zero) off
  have pushed : ∀ i, OnNvic
      ((setLastActive g (g.currentPending 0) 0 (g.runningIrq 0)).next 0 i) := by
    rw [setLastActive_next]
    exact OnNvic.link h.links h.running _
  refine .of_update inRange (cleared (setLastActive g _ 0 _) h.gap _ _) ?_ pushed
  exact h.pending

theorem repend_gap (off : GapOff g) (irq : Nat) : GapOff (repend g 0 irq).1 := by
  have pend cm : GapOff (gicSetPending g irq cm) := modify_gap (fun _ _ zero => zero) off
  unfold repend
  dsimp only
  split
  · split
    · exact pend _
    · exact off
  · exact off

/-- Unlinking changes one link, to another that is recorded. -/
theorem Sound.unlink (h : Sound g) (irq : Nat) (found : Option Nat) :
    Sound (unlink g 0 irq found) := by
  refine ⟨h.inRange.unlink 0 irq found, ?_, ?_, ?_, ?_⟩ <;> cases found
  · exact h.gap
  · exact h.gap
  · exact h.pending
  · exact h.pending
  · exact h.running
  · exact h.running
  · exact h.links
  · rename_i tmp
    change ∀ i, OnNvic ((setLastActive g tmp 0 (g.lastActive irq 0)).next 0 i)
    rw [setLastActive_next]
    exact OnNvic.link h.links (h.links irq) _

theorem repend_sound (h : Sound g) (irq : Nat) : Sound (repend g 0 irq).1 :=
  h.quiet (.of_registers (repend_frame g 0 irq) fun off => repend_gap off irq)

theorem gicCompleteIrq_sound (h : Sound g) (hu : gicCompleteIrq g 0 irq = .ok u) : Sound u := by
  have repended := repend_sound h irq
  unfold gicCompleteIrq at hu
  split at hu
  · cases hu
    exact h
  split at hu
  · cases hu
  dsimp only at hu
  split at hu
  · obtain ⟨found, _, hu⟩ := bind_ok_iff.mp hu
    have unlinked := repended.unlink irq found
    split at hu <;> cases hu
    · exact unlinked.quiet Quiet.refl.update
    · exact unlinked
  · cases hu
    have back := repended.inRange.links 0 ((repend g 0 irq).1.runningIrq 0)
    refine .of_update (repended.inRange.setRunning 0 back).update repended.gap ?_ repended.links
    exact repended.links _

theorem gicInit_sound : Sound (gicInit armv7m) := by
  refine ⟨gicInit_inRange armv7m, fun i low high => ?_, .inr (by decide), .inr (by decide),
    fun i => .inl (show 0 < 16 by decide)⟩
  simp only [gicInit, gicReset, if_neg (show ¬ i < 16 by omega)]

end QemuStm32.Nvic
