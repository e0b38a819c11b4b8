import QemuStm32.Gic.Registers

/-!
# What one access can change

Every access to the controller is a change of the interrupt registers, of an
enable bit or of a priority mask, each followed by `gic_update`, or an
acknowledge or a completion; a wide write adds further register changes.
`gicStep_changes` says so once, and the invariants are proved from it.
-/

namespace QemuStm32.Gic

open Runs

section
variable {c : Config}

/-- `u` differs from `s` in interrupt state, targets and priorities at most. -/
structure RegisterFrame (s u : State c) : Prop where
  parentIrq : u.parentIrq = s.parentIrq
  enabled : u.enabled = s.enabled
  cpuEnabled : u.cpuEnabled = s.cpuEnabled
  lastActive : u.lastActive = s.lastActive
  priorityMask : u.priorityMask = s.priorityMask
  runningIrq : u.runningIrq = s.runningIrq
  runningPriority : u.runningPriority = s.runningPriority
  currentPending : u.currentPending = s.currentPending

theorem RegisterFrame.refl (s : State c) : RegisterFrame s s :=
  ⟨rfl, rfl, rfl, rfl, rfl, rfl, rfl, rfl⟩

variable {s t u : State c} {f : State c → Nat → State c} {p : Prop} {offset cpu irq : Nat}
  {value : BitVec 32} {e : Event c}

theorem RegisterFrame.trans (h : RegisterFrame s t) (k : RegisterFrame t u) :
    RegisterFrame s u where
  parentIrq := k.parentIrq.trans h.parentIrq
  enabled := k.enabled.trans h.enabled
  cpuEnabled := k.cpuEnabled.trans h.cpuEnabled
  lastActive := k.lastActive.trans h.lastActive
  priorityMask := k.priorityMask.trans h.priorityMask
  runningIrq := k.runningIrq.trans h.runningIrq
  runningPriority := k.runningPriority.trans h.runningPriority
  currentPending := k.currentPending.trans h.currentPending

theorem modify_frame (s : State c) (irq : Nat) (f : IrqState c.ncpu → IrqState c.ncpu) :
    RegisterFrame s (s.modify irq f) := ⟨rfl, rfl, rfl, rfl, rfl, rfl, rfl, rfl⟩

theorem foldl_frame (step : ∀ s i, RegisterFrame s (f s i)) (l : List Nat) (s : State c) :
    RegisterFrame s (l.foldl f s) := by
  induction l generalizing s with
  | nil => exact .refl s
  | cons i l ih => exact (step s i).trans (ih (f s i))

theorem RegisterFrame.ite {a b : State c} [Decidable p] (ha : RegisterFrame s a)
    (hb : RegisterFrame s b) : RegisterFrame s (if p then a else b) := by
  split
  · exact ha
  · exact hb

theorem forBits_frame (step : ∀ s i, RegisterFrame s (f s i)) (n : Nat) (value : BitVec 32)
    (s : State c) : RegisterFrame s (forBits n value f s) := by
  exact foldl_frame (fun s i => .ite (step s i) (.refl s)) _ s

theorem setEnable_frame (cpu irq : Nat) (s : State c) (i : Nat) :
    RegisterFrame s (setEnable cpu irq s i) := by
  exact .ite ((modify_frame _ _ _).trans (modify_frame _ _ _)) (modify_frame _ _ _)

theorem clearEnable_frame (cpu irq : Nat) (s : State c) (i : Nat) :
    RegisterFrame s (clearEnable cpu irq s i) := by
  unfold clearEnable
  exact modify_frame _ _ _

theorem setConfiguration_frame (irq : Nat) (value : BitVec 32) (s : State c) (i : Nat) :
    RegisterFrame s (setConfiguration irq value s i) := by
  unfold setConfiguration
  exact (modify_frame _ _ _).trans (modify_frame _ _ _)

theorem setPriority_frame (s : State c) (irq cpu value : Nat) :
    RegisterFrame s (setPriority s irq cpu value) := by
  unfold setPriority
  split <;> exact ⟨rfl, rfl, rfl, rfl, rfl, rfl, rfl, rfl⟩

/-- Every accepted outcome of `r` is in the frame of `s`. -/
def Frames (s : State c) (r : Except Fault (State c)) : Prop := ∀ u, r = .ok u → RegisterFrame s u

theorem Frames.ok (h : RegisterFrame s u) : Frames s (.ok u) := by
  intro v hv
  obtain rfl := Except.ok.inj hv
  exact h

theorem Frames.bad (s : State c) (offset : Nat) : Frames s (badWrite offset) := nofun

theorem Frames.ite [Decidable p] {a b : Except Fault (State c)} (ha : p → Frames s a)
    (hb : ¬ p → Frames s b) : Frames s (if p then a else b) := by
  split
  · exact ha ‹p›
  · exact hb ‹¬ p›

section
variable (s : State c)

/-- A byte write changes registers only, except that offset 0 is the enable bit
of the distributor. -/
theorem writeRegister_frame (cpu : Nat) (value : BitVec 32) (h : offset ≠ 0) :
    Frames s (writeRegister s cpu offset value) := by
  repeat' refine Frames.ite (fun _ => ?_) (fun _ => ?_)
  all_goals try exact Frames.bad s offset
  · contradiction
  · exact .ok (.refl s)
  · exact .ok (forBits_frame (setEnable_frame cpu _) _ _ s)
  · exact .ok (forBits_frame (clearEnable_frame cpu _) _ _ s)
  · exact .ok (forBits_frame (fun _ _ => modify_frame _ _ _) _ _ s)
  · exact .ok (forBits_frame (fun _ _ => modify_frame _ _ _) _ _ s)
  · exact .ok (setPriority_frame s _ _ _)
  · exact .ok ⟨rfl, rfl, rfl, rfl, rfl, rfl, rfl, rfl⟩
  · exact .ok (foldl_frame (setConfiguration_frame _ _) _ s)

/-! ## Acknowledge and completion up to their call of `gic_update` -/

/-- `irq` made the running interrupt of `cpu`. -/
def running (cpu irq : Nat) : State c :=
  { s with
    runningIrq := set s.runningIrq cpu irq
    runningPriority := set s.runningPriority cpu
      (if irq = 1023 then 0x100 else gicGetPriority s irq cpu) }

theorem gicSetRunningIrq_eq (cpu irq : Nat) :
    gicSetRunningIrq s cpu irq = gicUpdate (running s cpu irq) := rfl

/-- The pending interrupt of `cpu` is taken by an acknowledge. -/
def Taken (cpu : Nat) : Prop :=
  s.currentPending cpu ≠ 1023 ∧
    gicGetPriority s (s.currentPending cpu) cpu < s.runningPriority cpu

/-- An acknowledge does nothing, or pushes the pending interrupt on the list of
active ones and makes it the running one. -/
theorem gicAcknowledgeIrq_cases (cpu : Nat) :
    (¬ Taken s cpu ∧ gicAcknowledgeIrq s cpu = (1023, s)) ∨ (Taken s cpu ∧ ∃ u,
      RegisterFrame (setLastActive s (s.currentPending cpu) cpu (s.runningIrq cpu)) u ∧
      gicAcknowledgeIrq s cpu =
        (s.currentPending cpu, gicUpdate (running u cpu (s.currentPending cpu)))) := by
  unfold gicAcknowledgeIrq
  dsimp only
  by_cases taken : Taken s cpu
  · right
    obtain ⟨some, lt⟩ := taken
    rw [if_neg (by omega)]
    rw [gicSetRunningIrq_eq]
    exact ⟨⟨some, lt⟩, _, modify_frame _ _ _, rfl⟩
  · left
    refine ⟨taken, if_pos ?_⟩
    unfold Taken at taken
    omega

theorem repend_frame (cpu irq : Nat) : RegisterFrame s (repend s cpu irq).1 := by
  unfold repend
  dsimp only
  split
  · split
    · dsimp only
      exact modify_frame _ _ _
    · exact .refl s
  · exact .refl s

end

theorem repend_quiet (h : (repend s cpu irq).2 = false) : (repend s cpu irq).1 = s := by
  unfold repend at h ⊢
  dsimp only at h
  split at h
  · split at h
    · cases h
    · rename_i some quiet
      rw [if_pos some, if_neg quiet]
  · rename_i none
    rw [if_neg none]

/-- A completion does nothing, or goes back to the interrupt before the running
one, or unlinks an interrupt from the list. -/
theorem gicCompleteIrq_cases (h : gicCompleteIrq s cpu irq = .ok t) :
    (s.runningIrq cpu = 1023 ∧ t = s) ∨
    (s.runningIrq cpu ≠ 1023 ∧ ∃ u, RegisterFrame s u ∧
      ((irq = s.runningIrq cpu ∧ t = gicUpdate (running u cpu (s.lastActive irq cpu))) ∨
        (irq ≠ s.runningIrq cpu ∧ ∃ found,
          findActive (fun i => s.lastActive i cpu) irq (c.nirq + 1) (s.runningIrq cpu) = .ok found ∧
          (t = gicUpdate (unlink u cpu irq found) ∨ (u = s ∧ t = unlink u cpu irq found))))) := by
  unfold gicCompleteIrq at h
  split at h
  · cases h; exact .inl ⟨‹_›, rfl⟩
  rename_i active
  refine .inr ⟨active, (repend s cpu irq).1, repend_frame s cpu irq, ?_⟩
  have frame := repend_frame s cpu irq
  split at h
  · cases h
  dsimp only at h
  rw [frame.runningIrq, frame.lastActive] at h
  by_cases self : irq = s.runningIrq cpu
  · rw [if_neg (not_not.mpr self)] at h
    cases h
    exact .inl ⟨self, by rw [self]; rfl⟩
  · rw [if_pos self] at h
    obtain ⟨found, hfound, h⟩ := bind_ok_iff.mp h
    refine .inr ⟨self, found, hfound, ?_⟩
    cases hu : (repend s cpu irq).2 with
    | true => rw [hu] at h; cases h; exact .inl rfl
    | false => rw [hu] at h; cases h; exact .inr ⟨repend_quiet hu, rfl⟩

/-! ## All accesses -/

/-- One change of the controller other than an acknowledge. -/
inductive Change (s : State c) : State c → Prop
  | registers {u : State c} (frame : RegisterFrame s u) : Change s (gicUpdate u)
  | enable (b : Bool) : Change s (gicUpdate { s with enabled := b })
  | cpuEnable (cpu : Nat) (b : Bool) :
    Change s (gicUpdate { s with cpuEnabled := set s.cpuEnabled cpu b })
  | mask (cpu value : Nat) (byte : value ≤ 0xff) :
    Change s (gicUpdate { s with priorityMask := set s.priorityMask cpu value })
  | complete (cpu irq : Nat) {t : State c} (h : gicCompleteIrq s cpu irq = .ok t) : Change s t

/-- Nothing, or one change and then register changes. -/
inductive Changes (s : State c) : State c → Prop
  | same : Changes s s
  | one {t : State c} (h : Change s t) : Changes s t
  | more {t u : State c} (h : Changes s t) (frame : RegisterFrame t u) : Changes s (gicUpdate u)

theorem gicSetPendingPrivate_changes (h : gicSetPendingPrivate s cpu irq = .ok t) :
    Changes s t := by
  unfold gicSetPendingPrivate at h
  split at h
  · split at h
    · cases h; exact .same
    · cases h; exact .one (.registers (modify_frame _ _ _))
  · cases h

theorem gicSetIrq_changes {level : Int} (h : gicSetIrq s irq level = .ok t) : Changes s t := by
  unfold gicSetIrq at h
  dsimp only at h
  split at h
  · split at h
    · cases h; exact .same
    split at h
    · split at h
      · cases h
        exact .one (.registers ((modify_frame _ _ _).trans (modify_frame _ _ _)))
      · cases h; exact .one (.registers (modify_frame _ _ _))
    · cases h; exact .one (.registers (modify_frame _ _ _))
  · cases h

/-- A byte write past offset 0 adds a register change. -/
theorem gicDistWriteb_more {r : State c} (before : Changes r s) (h : offset ≠ 0)
    (ht : gicDistWriteb s cpu offset value = .ok t) : Changes r t := by
  obtain ⟨u, hu, ht⟩ := bind_ok_iff.mp ht
  cases ht
  exact before.more (writeRegister_frame s cpu value h u hu)

theorem gicDistWriteb_changes (ht : gicDistWriteb s cpu offset value = .ok t) : Changes s t := by
  by_cases h : offset = 0
  · subst h
    obtain ⟨u, hu, ht⟩ := bind_ok_iff.mp ht
    cases ht
    unfold writeRegister at hu
    rw [if_pos (by decide)] at hu
    split at hu
    · cases hu
    · cases hu
      exact .one (.enable _)
  · exact gicDistWriteb_more .same h ht

theorem gicDistWritew_changes (ht : gicDistWritew s cpu offset value = .ok t) : Changes s t := by
  obtain ⟨u, hu, ht⟩ := bind_ok_iff.mp ht
  exact gicDistWriteb_more (gicDistWriteb_changes hu) (by omega) ht

theorem gicDistWritel_changes (ht : gicDistWritel s cpu offset value = .ok t) : Changes s t := by
  unfold gicDistWritel at ht
  split at ht
  · dsimp only at ht
    split at ht
    · cases ht; exact .one (.registers (modify_frame _ _ _))
    · cases ht
  · obtain ⟨u, hu, ht⟩ := bind_ok_iff.mp ht
    obtain ⟨v, hv, ht⟩ := bind_ok_iff.mp ht
    have first := gicDistWriteb_more (gicDistWritew_changes hu) (by omega) hv
    exact gicDistWriteb_more first (by omega) ht

/-- The event is an acknowledge by `cpu`. -/
def IsAcknowledge (e : Event c) (cpu : Nat) : Prop := ∃ h, e = .cpuRead ⟨cpu, h⟩ 0x0c

theorem gicCpuRead_changes {cpu : Fin c.numCpu} (h : gicCpuRead s cpu offset = .ok (value, t)) :
    t = s ∨ (offset = 0x0c ∧ t = (gicAcknowledgeIrq s cpu).2) := by
  unfold gicCpuRead at h
  split at h <;> cases h
  case h_4 => exact .inr ⟨rfl, rfl⟩
  all_goals exact .inl rfl

theorem gicCpuWrite_changes (h : gicCpuWrite s cpu offset value = .ok t) : Changes s t := by
  unfold gicCpuWrite at h
  split at h
  · cases h; exact .one (.cpuEnable cpu _)
  · cases h
    refine .one (.mask cpu _ ?_)
    exact Nat.and_le_right
  · cases h; exact .one (.registers (.refl s))
  · exact .one (.complete cpu _ h)
  · cases h

/-- Every accepted access makes such changes or is an acknowledge. -/
theorem gicStep_changes (h : gicStep s e = .ok t) :
    Changes s t ∨ ∃ cpu, IsAcknowledge e cpu ∧ t = (gicAcknowledgeIrq s cpu).2 := by
  cases e with
  | setIrq irq level => exact .inl (gicSetIrq_changes h)
  | setPendingPrivate cpu irq => exact .inl (gicSetPendingPrivate_changes h)
  | readb cpu offset | readw cpu offset | readl cpu offset =>
    obtain ⟨_, _, h⟩ := bind_ok_iff.mp h
    cases h; exact .inl .same
  | writeb cpu offset value => exact .inl (gicDistWriteb_changes h)
  | writew cpu offset value => exact .inl (gicDistWritew_changes h)
  | writel cpu offset value => exact .inl (gicDistWritel_changes h)
  | cpuRead cpu offset =>
    obtain ⟨⟨value, u⟩, hu, h⟩ := bind_ok_iff.mp h
    cases h
    obtain rfl | ⟨rfl, rfl⟩ := gicCpuRead_changes hu
    · exact .inl .same
    · exact .inr ⟨cpu, ⟨cpu.isLt, rfl⟩, rfl⟩
  | cpuWrite cpu offset value => exact .inl (gicCpuWrite_changes h)

/-- An acknowledge is always accepted. -/
theorem IsAcknowledge.step (h : IsAcknowledge e cpu) (s : State c) :
    gicStep s e = .ok (gicAcknowledgeIrq s cpu).2 := by
  obtain ⟨hlt, rfl⟩ := h
  rfl

end

end QemuStm32.Gic
