import QemuStm32.Gic.Changes
import QemuStm32.Gic.Update

/-!
# The output lines along a run

`gic_update` stops at the first disabled CPU, so an access refreshes the line
and `current_pending` of the CPUs up to that one only.

`consistent_along_iff`: all lines and `current_pending` are right throughout a
run exactly when no access of the run changes what is to be signalled to a CPU
that stands behind a disabled one.
-/

namespace QemuStm32.Gic

open Runs

section
variable {c : Config}

/-- From `s` to `t`, the CPUs behind a disabled one keep their outputs and the
others get the right ones. -/
def Refreshes (s t : State c) : Prop :=
  ∀ cpu, cpu < c.numCpu → cached t cpu = if Behind t cpu then cached s cpu else decision t cpu

variable {s u t : State c} {e : Event c}

theorem gicUpdate_refreshes (same : ∀ cpu, cached u cpu = cached s cpu) :
    Refreshes s (gicUpdate u) := by
  intro cpu hlt
  rw [cached_gicUpdate u hlt, same, decision_gicUpdate]
  exact if_congr (behind_gicUpdate u cpu).symm rfl rfl

theorem Refreshes.trans (h : Refreshes s t) (k : Refreshes t u) (on : ∀ d, On u d ↔ On t d) :
    Refreshes s u := by
  intro cpu hlt
  have behind : Behind u cpu ↔ Behind t cpu := by simp [Behind, on]
  rw [k cpu hlt]
  by_cases hb : Behind u cpu
  · rw [if_pos hb, if_pos hb, h cpu hlt, if_pos (behind.mp hb)]
  · rw [if_neg hb, if_neg hb]

/-- The outputs of every CPU are the ones `gic_update` would compute. -/
def Settled (s : State c) : Prop := ∀ cpu, cpu < c.numCpu → cached s cpu = decision s cpu

theorem Settled.refreshes (h : Settled s) (same : ∀ cpu, cached t cpu = cached s cpu)
    (unmoved : ∀ cpu, decision t cpu = decision s cpu) : Refreshes s t := by
  intro cpu hlt
  rw [same, unmoved]
  split
  · rfl
  · exact h cpu hlt

/-! ## Every access refreshes -/

theorem RegisterFrame.cached (h : RegisterFrame s u) (cpu : Nat) : cached u cpu = cached s cpu := by
  simp only [Gic.cached, h.currentPending, h.parentIrq]

theorem RegisterFrame.on (h : RegisterFrame s u) (cpu : Nat) : On u cpu ↔ On s cpu := by
  simp only [On, h.enabled, h.cpuEnabled]

theorem unlink_cached (s : State c) (cpu irq : Nat) (found : Option Nat) (j : Nat) :
    cached (unlink s cpu irq found) j = cached s j := by
  cases found <;> rfl

theorem unlink_decision (s : State c) (cpu irq : Nat) (found : Option Nat) (j : Nat) :
    decision (unlink s cpu irq found) j = decision s j := by
  cases found <;> rfl

theorem gicAcknowledgeIrq_refreshes (h : Settled s) (cpu : Nat) :
    Refreshes s (gicAcknowledgeIrq s cpu).2 := by
  obtain ⟨_, e⟩ | ⟨_, u, frame, e⟩ := gicAcknowledgeIrq_cases s cpu <;> rw [e]
  · exact h.refreshes (fun _ => rfl) (fun _ => rfl)
  · exact gicUpdate_refreshes frame.cached

theorem gicCompleteIrq_refreshes (h : Settled s) {cpu irq : Nat}
    (ht : gicCompleteIrq s cpu irq = .ok t) : Refreshes s t := by
  obtain ⟨_, rfl⟩ | ⟨_, u, frame, ⟨_, rfl⟩ | ⟨_, found, _, rfl | ⟨rfl, rfl⟩⟩⟩ :=
    gicCompleteIrq_cases ht
  · exact h.refreshes (fun _ => rfl) (fun _ => rfl)
  · exact gicUpdate_refreshes frame.cached
  · exact gicUpdate_refreshes fun j => (unlink_cached u cpu irq found j).trans (frame.cached j)
  · exact h.refreshes (unlink_cached _ cpu irq found) (unlink_decision _ cpu irq found)

theorem Change.refreshes (h : Settled s) (change : Change s t) : Refreshes s t := by
  cases change with
  | registers frame => exact gicUpdate_refreshes frame.cached
  | enable b | cpuEnable cpu b => exact gicUpdate_refreshes fun _ => rfl
  | mask cpu value _ => exact gicUpdate_refreshes fun _ => rfl
  | complete cpu irq ht => exact gicCompleteIrq_refreshes h ht

theorem Changes.refreshes (h : Settled s) (changes : Changes s t) : Refreshes s t := by
  induction changes with
  | same => exact h.refreshes (fun _ => rfl) (fun _ => rfl)
  | one change => exact change.refreshes h
  | more _ frame ih =>
    exact ih.trans (gicUpdate_refreshes frame.cached) fun d => by simp [frame.on]

theorem gicStep_refreshes (h : Settled s) (ht : gicStep s e = .ok t) : Refreshes s t := by
  obtain changes | ⟨cpu, _, rfl⟩ := gicStep_changes ht
  · exact changes.refreshes h
  · exact gicAcknowledgeIrq_refreshes h cpu

/-! ## The priority masks -/

theorem Change.maskByte (h : MaskByte s) (change : Change s t) : MaskByte t := by
  intro j
  cases change with
  | registers frame => simp [frame.priorityMask, h j]
  | enable b | cpuEnable cpu b => simp [h j]
  | mask cpu value byte =>
    by_cases hj : j = cpu
    · simp [hj, byte]
    · simp [set_other _ _ hj, h j]
  | complete cpu irq ht =>
    obtain ⟨_, rfl⟩ | ⟨_, u, frame, ⟨_, rfl⟩ | ⟨_, found, _, rfl | ⟨rfl, rfl⟩⟩⟩ :=
      gicCompleteIrq_cases ht
    · exact h j
    · simpa [running, frame.priorityMask] using h j
    · cases found <;> simpa [unlink, setLastActive, frame.priorityMask] using h j
    · cases found <;> exact h j

theorem Changes.maskByte (h : MaskByte s) (changes : Changes s t) : MaskByte t := by
  induction changes with
  | same => exact h
  | one change => exact change.maskByte h
  | more _ frame ih =>
    intro j
    simpa [frame.priorityMask] using ih j

theorem gicStep_maskByte (h : MaskByte s) (ht : gicStep s e = .ok t) : MaskByte t := by
  obtain changes | ⟨cpu, _, rfl⟩ := gicStep_changes ht
  · exact changes.maskByte h
  · obtain ⟨_, e⟩ | ⟨_, u, frame, e⟩ := gicAcknowledgeIrq_cases s cpu <;> rw [e]
    · exact h
    · intro j
      simpa [running, frame.priorityMask, setLastActive] using h j

/-! ## Runs -/

/-- For every CPU that is left behind a disabled one, the access changes neither
whether it is to be interrupted nor what is to be shown as pending to it. -/
def SparesBehind (s : State c) (e : Event c) : Prop :=
  ∀ t, gicStep s e = .ok t → ∀ cpu, cpu < c.numCpu → Behind t cpu →
    (ToRaise t cpu ↔ ToRaise s cpu) ∧ ∀ irq, ToPend t cpu irq ↔ ToPend s cpu irq

/-- For one access, sparing the CPUs behind a disabled one is exactly what keeps
all outputs right. -/
theorem sparesBehind_iff (mask : MaskByte s) (h : Consistent s) (e : Event c) :
    SparesBehind s e ↔ ∀ t, gicStep s e = .ok t → Consistent t := by
  have settled : Settled s := (consistent_iff_decision mask).mp h
  refine forall_congr' fun t => forall_congr' fun ht => ?_
  have mask' := gicStep_maskByte mask ht
  rw [consistent_iff_decision mask']
  refine forall_congr' fun cpu => forall_congr' fun hlt => ?_
  rw [gicStep_refreshes settled ht cpu hlt, ← decision_eq_iff (mask cpu) (mask' cpu)]
  by_cases behind : Behind t cpu
  · rw [if_pos behind, settled cpu hlt]
    exact ⟨fun h => (h behind).symm, fun h _ => h.symm⟩
  · rw [if_neg behind]
    exact ⟨fun _ => rfl, fun _ hb => absurd hb behind⟩

section
variable (c : Config)

theorem gicInit_maskByte : MaskByte (gicInit c) := by
  intro cpu
  simp only [gicInit, gicReset, State.zero]
  split <;> omega

theorem gicInit_quiet (cpu irq : Nat) : ¬ Requests (gicInit c) cpu irq := by
  rintro ⟨_, _, hp⟩
  revert hp
  simp only [gicTestPending, gicInit, gicReset]
  split <;> simp

theorem gicInit_consistent : Consistent (gicInit c) := by
  intro cpu hlt
  have none : ¬ ∃ irq, Passes (gicInit c) cpu irq := fun ⟨irq, h, _⟩ => gicInit_quiet c cpu irq h
  refine ⟨?_, .inr ⟨fun _ => none, by simp [gicInit, gicReset, hlt]⟩⟩
  have low : (gicInit c).parentIrq cpu = false := rfl
  rw [low]
  exact ⟨fun h => absurd h (by decide), fun ⟨_, irq, h, _⟩ => absurd ⟨irq, h⟩ none⟩

/-- Along any run from reset, the line and `current_pending` of every CPU are
right throughout precisely when every access of the run spares the CPUs behind
a disabled one. -/
theorem consistent_along_iff (events : List (Event c)) :
    Always gicStep Consistent (gicInit c) events ↔
      StepsMeet gicStep SparesBehind (gicInit c) events := by
  exact always_iff_stepsMeet (fun s e t h ht => gicStep_maskByte h ht)
    (fun s e mask h => sparesBehind_iff mask h e) (gicInit_maskByte c) (gicInit_consistent c)

/-- With one CPU nothing stands behind, and the outputs are always right. -/
theorem consistent_along_single (single : c.numCpu = 1) (events : List (Event c)) :
    Always gicStep Consistent (gicInit c) events := by
  refine always_of_keeps (I := fun s => MaskByte s ∧ Consistent s) ?_ events
    ⟨gicInit_maskByte c, gicInit_consistent c⟩ |>.mono fun _ h => h.2
  rintro s e t ⟨mask, h⟩ ht
  refine ⟨gicStep_maskByte mask ht, (sparesBehind_iff mask h e).mp ?_ t ht⟩
  rintro u _ cpu hlt ⟨d, hd, _⟩
  omega

end

/-- An interrupt is enabled, raised, acknowledged and completed on one CPU. -/
def served : List (Event realview) :=
  let cpu : Fin realview.numCpu := ⟨0, Nat.one_pos⟩
  [.writeb cpu 0 1, .cpuWrite cpu 0 1, .writeb cpu 0x820 1, .writeb cpu 0x104 1, .setIrq 0 1,
    .cpuRead cpu 0x0c, .cpuWrite cpu 0x10 32]

theorem consistent_along_realview :
    ((run gicStep (gicInit realview) (served.take 5)).toOption.map (·.parentIrq 0) = some true ∧
      (run gicStep (gicInit realview) (served.take 6)).toOption.map (·.runningIrq 0) = some 32 ∧
      (run gicStep (gicInit realview) served).toOption.map (·.runningIrq 0) = some 1023) ∧
    Always gicStep Consistent (gicInit realview) served :=
  ⟨by decide +kernel, consistent_along_single realview rfl served⟩

/-- A software interrupt for the second CPU while the first CPU's interface is
still disabled. -/
def softIntBehind : List (Event a9mpcore) :=
  [.writeb ⟨0, by decide⟩ 0 1, .cpuWrite ⟨1, by decide⟩ 0 1,
    .writel ⟨0, by decide⟩ 0xf00 0x00020001]

/-- The second CPU is enabled and has an enabled pending interrupt of priority 0,
but its line stays low. -/
theorem line_behind_disabled_stale :
    ¬ ∀ (c : Config) (events : List (Event c)), Always gicStep Consistent (gicInit c) events := by
  intro h
  have observed : (run gicStep (gicInit a9mpcore) softIntBehind).toOption.map (fun t =>
      (t.parentIrq 1, t.enabled, t.cpuEnabled 1, gicTestEnabled t 1 (cpuMask _ 1),
        gicTestPending t 1 (cpuMask _ 1), gicGetPriority t 1 1, t.priorityMask 1,
        t.runningPriority 1)) = some (false, true, true, true, true, 0, 0xf0, 0x100) := by
    rfl
  obtain ⟨t, ht, ht'⟩ := exists_of_observed observed
  simp only [Prod.mk.injEq] at ht'
  obtain ⟨low, on, cpuOn, enabled, pending, prio, mask, running⟩ := ht'
  have agrees := (h a9mpcore softIntBehind).final ht 1 (by decide)
  have high : t.parentIrq 1 = true :=
    agrees.line.mpr ⟨⟨on, cpuOn⟩, 1, ⟨⟨by decide, enabled, pending⟩, by omega⟩, by omega⟩
  rw [low] at high
  exact absurd high (by decide)

end

end QemuStm32.Gic
