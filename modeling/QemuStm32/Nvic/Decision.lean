import QemuStm32.Gic.Lines
import QemuStm32.Nvic.Registers

/-!
# The interrupt decision of the NVIC

With one CPU, always enabled, every change that ends in `gic_update` leaves the
line and `current_pending` up to date. The System Handler Control register
changes enable bits without it.

`current_along_iff`: the line and `current_pending` are up to date throughout a
run exactly when every write to System Handler Control leaves the decision
unchanged.
-/

namespace QemuStm32.Nvic

open Gic Runs

/-- The line and `current_pending` are what `gic_update` would compute. -/
def Current (s : NvicState) : Prop := cached (gicUpdate s.gic) 0 = cached s.gic 0

theorem not_behind_zero {c : Config} (g : State c) : ¬ Behind g 0 :=
  fun ⟨d, hd, _⟩ => Nat.not_lt_zero d hd

theorem settled_iff (g : State armv7m) : Settled g ↔ cached g 0 = decision g 0 := by
  constructor
  · exact fun h => h 0 (by decide)
  · intro h cpu hlt
    obtain rfl : cpu = 0 := Nat.lt_one_iff.mp hlt
    exact h

theorem current_iff (s : NvicState) : Current s ↔ Settled s.gic := by
  unfold Current
  rw [settled_iff, cached_gicUpdate s.gic (by decide)]
  exact eq_comm

variable {g : State armv7m} {s t : NvicState} {irq offset : Nat} {scale : Int} {value : BitVec 32}

/-- With one CPU, refreshing leaves everything up to date. -/
theorem settled_of_refreshes {g' : State armv7m} (h : Refreshes g g') : Settled g' := by
  rw [settled_iff, h 0 (by decide), if_neg (not_behind_zero g')]

theorem settled_gicUpdate (g : State armv7m) : Settled (gicUpdate g) :=
  settled_of_refreshes (gicUpdate_refreshes fun _ => rfl)

/-! ## Every operation but one -/

theorem setPending_settled (h : Settled s.gic) (ht : armv7mNvicSetPending s irq = .ok t) :
    Settled t.gic := by
  obtain ⟨g, hg, ht⟩ := bind_ok_iff.mp ht
  cases ht
  exact settled_of_refreshes ((gicSetPendingPrivate_changes hg).refreshes h)

theorem acknowledge_settled (h : Settled s.gic) (ht : armv7mNvicAcknowledgeIrq s = .ok (irq, t)) :
    Settled t.gic := by
  unfold armv7mNvicAcknowledgeIrq at ht
  dsimp only at ht
  split at ht
  · cases ht
  · cases ht
    exact settled_of_refreshes (gicAcknowledgeIrq_refreshes h 0)

theorem complete_settled (h : Settled s.gic) (ht : armv7mNvicCompleteIrq s irq = .ok t) :
    Settled t.gic := by
  obtain ⟨g, hg, ht⟩ := bind_ok_iff.mp ht
  cases ht
  exact settled_of_refreshes (gicCompleteIrq_refreshes h hg)

theorem runTimers_settled (h : Settled s.gic) (ht : nvicRunTimers scale s = .ok t) :
    Settled t.gic := by
  unfold nvicRunTimers at ht
  dsimp only at ht
  split at ht
  · refine setPending_settled ?_ ht
    exact h
  · cases ht; exact h

theorem nvicReadl_gic (ht : nvicReadl scale s offset = .ok (value, t)) : t.gic = s.gic := by
  unfold nvicReadl at ht
  split at ht
  case h_4 =>
    obtain ⟨_, _, ht⟩ := bind_ok_iff.mp ht
    cases ht; rfl
  all_goals first
    | (cases ht; rfl)
    | cases ht

theorem readl_gic (ht : nvicDistReadl scale s offset = .ok (value, t)) : t.gic = s.gic := by
  unfold nvicDistReadl at ht
  split at ht
  · exact nvicReadl_gic ht
  · obtain ⟨_, _, ht⟩ := bind_ok_iff.mp ht
    cases ht; rfl

theorem writePair_settled {set clear : Nat} (h : Settled s.gic)
    (ht : writePair s value set clear irq = .ok t) : Settled t.gic := by
  unfold writePair at ht
  split at ht
  · exact setPending_settled h ht
  · split at ht
    · cases ht; exact settled_gicUpdate _
    · cases ht; exact h

theorem writeControlState_settled (h : Settled s.gic) (ht : writeControlState s value = .ok t) :
    Settled t.gic := by
  obtain ⟨u, hu, ht⟩ := bind_ok_iff.mp ht
  obtain ⟨v, hv, ht⟩ := bind_ok_iff.mp ht
  have first : Settled u.gic := by
    split at hu
    · exact setPending_settled h hu
    · cases hu; exact h
  exact writePair_settled (writePair_settled first hv) ht

theorem writeResetControl_same (ht : writeResetControl s value = .ok t) : t = s := by
  unfold writeResetControl at ht
  split at ht
  · split at ht
    · cases ht
    · split at ht
      · cases ht
      · cases ht; rfl
  · cases ht; rfl

/-- Among the system control registers only System Handler Control can leave
the decision behind. -/
theorem nvicWritel_settled (h : Settled s.gic) (other : offset ≠ 0xd24)
    (ht : nvicWritel scale s offset value = .ok t) : Settled t.gic := by
  unfold nvicWritel at ht
  split at ht
  · cases ht; exact h
  · cases ht; exact h
  · cases ht; exact h
  · exact writeControlState_settled h ht
  · cases ht; exact h
  · rw [writeResetControl_same ht]; exact h
  iterate 3
    · cases ht; exact settled_gicUpdate _
  · exact absurd rfl other
  · cases ht

theorem writel_settled (h : Settled s.gic) (other : offset ≠ 0xd24)
    (ht : nvicDistWritel scale s offset value = .ok t) : Settled t.gic := by
  unfold nvicDistWritel at ht
  split at ht
  · exact nvicWritel_settled h other ht
  · obtain ⟨g, hg, ht⟩ := bind_ok_iff.mp ht
    cases ht
    exact settled_of_refreshes ((gicDistWritel_changes hg).refreshes h)

/-! ## System Handler Control -/

theorem handlerControl_frame (g : State armv7m) (value : BitVec 32) :
    RegisterFrame g (handlerControl g value) := by
  unfold handlerControl
  exact ((modify_frame _ _ _).trans (modify_frame _ _ _)).trans (modify_frame _ _ _)

theorem handlerControl_settled_iff (h : Settled g) (value : BitVec 32) :
    Settled (handlerControl g value) ↔ decision (handlerControl g value) 0 = decision g 0 := by
  rw [settled_iff, (handlerControl_frame g value).cached, (settled_iff g).mp h]
  exact eq_comm

/-! ## Runs -/

/-- A write to System Handler Control leaves the decision as it is. -/
def KeepsDecision (s : NvicState) : NvicEvent → Prop
  | .writel offset value =>
    offset = 0xd24 → decision (handlerControl s.gic value) 0 = decision s.gic 0
  | _ => True

theorem nvicStep_settled {e : NvicEvent} (h : Settled s.gic)
    (other : ∀ value, e ≠ .writel 0xd24 value) (ht : nvicStep scale s e = .ok t) :
    Settled t.gic := by
  cases e with
  | advance ns => cases ht; exact h
  | setIrq irq level =>
    obtain ⟨g, hg, ht⟩ := bind_ok_iff.mp ht
    cases ht; exact settled_of_refreshes ((gicSetIrq_changes hg).refreshes h)
  | setPending irq => exact setPending_settled h ht
  | acknowledge =>
    obtain ⟨⟨irq, u⟩, hu, ht⟩ := bind_ok_iff.mp ht
    cases ht; exact acknowledge_settled h hu
  | complete irq => exact complete_settled h ht
  | readb offset | readw offset =>
    obtain ⟨_, _, ht⟩ := bind_ok_iff.mp ht
    cases ht; exact h
  | readl offset =>
    obtain ⟨⟨value, u⟩, hu, ht⟩ := bind_ok_iff.mp ht
    cases ht; rw [readl_gic hu]; exact h
  | writeb offset value =>
    obtain ⟨g, hg, ht⟩ := bind_ok_iff.mp ht
    cases ht; exact settled_of_refreshes ((gicDistWriteb_changes hg).refreshes h)
  | writew offset value =>
    obtain ⟨g, hg, ht⟩ := bind_ok_iff.mp ht
    cases ht; exact settled_of_refreshes ((gicDistWritew_changes hg).refreshes h)
  | writel offset value =>
    exact writel_settled h (fun e => other value (by rw [e])) ht
  | runTimers => exact runTimers_settled h ht

theorem keepsDecision_iff (scale : Int) (h : Current s) (e : NvicEvent) :
    KeepsDecision s e ↔ ∀ t, nvicStep scale s e = .ok t → Current t := by
  have settled := (current_iff s).mp h
  by_cases handler : ∃ value, e = .writel 0xd24 value
  · obtain ⟨value, rfl⟩ := handler
    have step : nvicStep scale s (.writel 0xd24 value) =
        .ok (s.withGic (handlerControl s.gic value)) := rfl
    simp only [KeepsDecision, step, Except.ok.injEq, forall_eq', current_iff, forall_const]
    exact (handlerControl_settled_iff settled value).symm
  · have other : ∀ value, e ≠ .writel 0xd24 value := fun value he => handler ⟨value, he⟩
    constructor
    · exact fun _ t ht => (current_iff t).mpr (nvicStep_settled settled other ht)
    · intro _
      cases e with
      | writel offset value => exact fun he => absurd (by rw [he]) (other value)
      | _ => trivial

theorem start_current (cpuid : BitVec 32) (now : Nat) : Current (.start cpuid now) := by
  rw [current_iff]
  exact (consistent_iff_decision (gicInit_maskByte armv7m)).mp (gicInit_consistent armv7m)

/-- Along any run from initialisation, the line and `current_pending` are what
`gic_update` would compute, after every operation, precisely when every write to
System Handler Control leaves that decision unchanged. -/
theorem current_along_iff (scale : Int) (cpuid : BitVec 32) (now : Nat) (events : List NvicEvent) :
    Always (nvicStep scale) Current (.start cpuid now) events ↔
      StepsMeet (nvicStep scale) KeepsDecision (.start cpuid now) events :=
  always_iff_stepsMeet (fun _ _ _ _ _ => trivial)
    (fun _ e _ h => keepsDecision_iff scale h e) trivial (start_current cpuid now)

/-- A pending memory fault that System Handler Control disables keeps the line
high and stays in `current_pending`. -/
theorem handler_control_stale :
    ¬ ∀ (scale : Int) (cpuid : BitVec 32) (now : Nat) (events : List NvicEvent),
      Always (nvicStep scale) Current (.start cpuid now) events := by
  intro h
  have observed : (run (nvicStep 1000) (.start 0 0) [.setPending 4, .writel 0xd24 0]).toOption.map
      (fun t => (cached (gicUpdate t.gic) 0, cached t.gic 0)) =
        some ((1023, false), (4, true)) := by
    decide +kernel
  obtain ⟨t, ht, fresh, stale⟩ := exists_of_observed_pair observed
  have current := (h 1000 0 0 _).final ht
  rw [Current, fresh, stale] at current
  exact absurd current (by decide)

end QemuStm32.Nvic
