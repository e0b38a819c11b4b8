import QemuStm32.Gic.Registers
import QemuStm32.Lib.FirstMin

/-!
# The interrupt decision

What the output lines and `current_pending` are for (`Agrees`), what
`gic_update` computes (`decision`), that the two are one, and which CPUs a call
of `gic_update` reaches.
-/

namespace QemuStm32.Gic

section
variable {c : Config}

/-- The distributor and the interface of `cpu` are both enabled. -/
def On (s : State c) (cpu : Nat) : Prop := s.enabled = true ∧ s.cpuEnabled cpu = true

instance (s : State c) (cpu : Nat) : Decidable (On s cpu) := instDecidableAnd

section
variable (s : State c)

/-- `irq` is enabled and pending for `cpu`. -/
def Requests (cpu irq : Nat) : Prop :=
  irq < c.nirq ∧ gicTestEnabled s irq (cpuMask c cpu) = true ∧
    gicTestPending s irq (cpuMask c cpu) = true

/-- `irq` requests `cpu` with a priority value the CPU's mask lets through. -/
def Passes (cpu irq : Nat) : Prop :=
  Requests s cpu irq ∧ gicGetPriority s irq cpu ≤ s.priorityMask cpu

/-- `irq` is the lowest-numbered of the requests of best priority. -/
def Best (cpu irq : Nat) : Prop :=
  Requests s cpu irq ∧ ∀ j, Requests s cpu j →
    gicGetPriority s irq cpu ≤ gicGetPriority s j cpu ∧
      (gicGetPriority s j cpu = gicGetPriority s irq cpu → irq ≤ j)

/-- `cpu` is to be interrupted: it is on, and a request passes its mask and its
running priority. -/
def ToRaise (cpu : Nat) : Prop :=
  On s cpu ∧ ∃ irq, Passes s cpu irq ∧ gicGetPriority s irq cpu < s.runningPriority cpu

/-- `irq` is to be shown as pending to `cpu`: the best request if the CPU is on
and a request passes its mask, and 1023 otherwise. -/
def ToPend (cpu irq : Nat) : Prop :=
  (On s cpu ∧ (∃ j, Passes s cpu j) ∧ Best s cpu irq) ∨
    ((On s cpu → ¬ ∃ j, Passes s cpu j) ∧ irq = 1023)

end

/-- The line and `current_pending` of `cpu` are what the enable, pending,
priority, mask and running state ask for. -/
structure Agrees (s : State c) (cpu : Nat) : Prop where
  line : s.parentIrq cpu = true ↔ ToRaise s cpu
  pending : ToPend s cpu (s.currentPending cpu)

section
variable (s : State c)

def Consistent : Prop := ∀ cpu, cpu < c.numCpu → Agrees s cpu

/-! ## The decision `gic_update` makes -/

/-- `current_pending` and the line as `gic_update` computes them for `cpu`. -/
def decision (cpu : Nat) : Nat × Bool :=
  if On s cpu ∧ (findBest s cpu).1 ≤ s.priorityMask cpu then
    ((findBest s cpu).2, decide ((findBest s cpu).1 < s.runningPriority cpu))
  else (1023, false)

/-- `current_pending` and the line as they stand. -/
def cached (cpu : Nat) : Nat × Bool := (s.currentPending cpu, s.parentIrq cpu)

/-- The priority mask of every CPU is a byte. -/
def MaskByte : Prop := ∀ cpu, s.priorityMask cpu ≤ 0xff

theorem findBest_spec (cpu : Nat) :
    (findBest s cpu = (0x100, 1023) ∧ ∀ j, Requests s cpu j → 0x100 ≤ gicGetPriority s j cpu) ∨
    (∃ k, findBest s cpu = (gicGetPriority s k cpu, k) ∧ Best s cpu k ∧
      gicGetPriority s k cpu < 0x100) := by
  have requests_iff : ∀ j, Requests s cpu j ↔ j < c.nirq ∧
      (gicTestEnabled s j (cpuMask c cpu) && gicTestPending s j (cpuMask c cpu)) = true := by
    simp [Requests]
  obtain ⟨e, above⟩ | ⟨k, e, hk, below⟩ :=
    FirstMin.search_spec
    c.nirq (0x100, 1023)
  · refine .inl ⟨e, fun j hj => ?_⟩
    obtain ⟨hlt, hreq⟩ := (requests_iff j).mp hj
    exact above j hlt hreq
  · refine .inr ⟨k, e, ⟨(requests_iff k).mpr ⟨hk.lt, hk.holds⟩, fun j hj => ?_⟩, below⟩
    obtain ⟨hlt, hreq⟩ := (requests_iff j).mp hj
    exact ⟨hk.least j hlt hreq, hk.first j hlt hreq⟩

end

variable {s : State c} {cpu : Nat}

theorem Best.unique {j k : Nat} (hj : Best s cpu j) (hk : Best s cpu k) : j = k := by
  have := hj.2 k hk.1
  have := hk.2 j hj.1
  omega

section
variable (mask : s.priorityMask cpu ≤ 0xff)
include mask

/-- With a byte for a mask, the best priority passes exactly when some request
does. -/
theorem findBest_passes : (findBest s cpu).1 ≤ s.priorityMask cpu ↔ ∃ irq, Passes s cpu irq := by
  obtain ⟨e, above⟩ | ⟨k, e, hk, _⟩ := findBest_spec s cpu <;> rw [e]
  · refine ⟨fun h => absurd h (by omega), fun ⟨irq, hreq, hle⟩ => ?_⟩
    have := above irq hreq
    omega
  · exact ⟨fun h => ⟨k, hk.1, h⟩, fun ⟨irq, hreq, hle⟩ => (hk.2 irq hreq).1.trans hle⟩

/-- `gic_update` decides as asked. -/
theorem decision_spec :
    ((decision s cpu).2 = true ↔ ToRaise s cpu) ∧
      ∀ irq, ToPend s cpu irq ↔ irq = (decision s cpu).1 := by
  by_cases pass : On s cpu ∧ ∃ irq, Passes s cpu irq
  · obtain ⟨on, some⟩ := pass
    have le := (findBest_passes mask).mpr some
    rw [decision, if_pos ⟨on, le⟩]
    obtain ⟨e, _⟩ | ⟨k, e, hk, _⟩ := findBest_spec s cpu
    · rw [e] at le; omega
    rw [e] at le ⊢
    constructor
    · rw [decide_eq_true_iff]
      constructor
      · exact fun h => ⟨on, k, ⟨hk.1, le⟩, h⟩
      · exact fun ⟨_, irq, hp, hlt⟩ => (hk.2 irq hp.1).1.trans_lt hlt
    · intro irq
      constructor
      · rintro (⟨_, _, best⟩ | ⟨none, _⟩)
        · exact best.unique hk
        · exact absurd some (none on)
      · rintro rfl
        exact .inl ⟨on, some, hk⟩
  · have off : ¬ (On s cpu ∧ (findBest s cpu).1 ≤ s.priorityMask cpu) :=
      fun h => pass ⟨h.1, (findBest_passes mask).mp h.2⟩
    rw [decision, if_neg off]
    constructor
    · simp only [Bool.false_eq_true, false_iff]
      exact fun ⟨on, irq, hp, _⟩ => pass ⟨on, irq, hp⟩
    intro irq
    constructor
    · rintro (⟨on, some, _⟩ | ⟨_, none⟩)
      · exact absurd ⟨on, some⟩ pass
      · exact none
    · rintro rfl
      exact .inr ⟨fun on some => pass ⟨on, some⟩, rfl⟩

/-- The cached pair is right exactly when it is the one `gic_update` computes. -/
theorem agrees_iff_decision : Agrees s cpu ↔ cached s cpu = decision s cpu := by
  obtain ⟨line, pending⟩ := decision_spec mask
  constructor
  · intro h
    refine Prod.ext ((pending _).mp h.pending) ?_
    exact Bool.eq_iff_iff.mpr (h.line.trans line.symm)
  · intro h
    obtain ⟨hp, hl⟩ := Prod.mk.inj h
    refine ⟨?_, (pending _).mpr hp⟩
    rw [hl]
    exact line

end

/-- Two states ask for the same outputs exactly when `gic_update` decides the
same. -/
theorem decision_eq_iff {t : State c} (hs : s.priorityMask cpu ≤ 0xff)
    (ht : t.priorityMask cpu ≤ 0xff) :
    decision t cpu = decision s cpu ↔
      (ToRaise t cpu ↔ ToRaise s cpu) ∧ ∀ irq, ToPend t cpu irq ↔ ToPend s cpu irq := by
  obtain ⟨lineS, pendingS⟩ := decision_spec hs
  obtain ⟨lineT, pendingT⟩ := decision_spec ht
  constructor
  · intro h
    rw [h] at lineT pendingT
    exact ⟨lineT.symm.trans lineS, fun irq => (pendingT irq).trans (pendingS irq).symm⟩
  · rintro ⟨line, pending⟩
    refine Prod.ext ?_ (Bool.eq_iff_iff.mpr (lineT.trans (line.trans lineS.symm)))
    exact (pendingS _).mp ((pending _).mp ((pendingT _).mpr rfl))

theorem consistent_iff_decision (mask : MaskByte s) :
    Consistent s ↔ ∀ cpu, cpu < c.numCpu → cached s cpu = decision s cpu := by
  constructor
  · exact fun h cpu hlt => (agrees_iff_decision (mask cpu)).mp (h cpu hlt)
  · exact fun h cpu hlt => (agrees_iff_decision (mask cpu)).mpr (h cpu hlt)

/-! ## The CPUs a call of `gic_update` reaches -/

/-- `cpu` stands behind a disabled CPU interface, or the distributor is disabled
and `cpu` is not the first. -/
def Behind (s : State c) (cpu : Nat) : Prop := ∃ d, d < cpu ∧ ¬ On s d

instance (s : State c) (cpu : Nat) : Decidable (Behind s cpu) :=
  inferInstanceAs (Decidable (∃ d, d < cpu ∧ ¬ On s d))

variable (s : State c)

/-- The pair `d` written out for `cpu`. -/
def output (cpu : Nat) (d : Nat × Bool) : State c :=
  { s with currentPending := set s.currentPending cpu d.1, parentIrq := set s.parentIrq cpu d.2 }

theorem set_set {α : Type} (f : Nat → α) (i : Nat) (x y : α) : set (set f i x) i y = set f i y := by
  funext j
  by_cases h : j = i <;> simp [set, h]

@[simp] theorem decision_output (cpu j : Nat) (d : Nat × Bool) :
    decision (output s cpu d) j = decision s j := rfl

theorem cached_output (cpu j : Nat) (d : Nat × Bool) :
    cached (output s cpu d) j = if j = cpu then d else cached s j := by
  by_cases h : j = cpu
  · simp [cached, output, h]
  · simp [cached, output, h, set_other]

/-- One round of the CPU loop: the pair for `cpu` is written out, and the loop
goes on only past an enabled CPU. -/
theorem gicUpdateFrom_succ (n cpu : Nat) (s : State c) :
    gicUpdateFrom (n + 1) cpu s =
      if On s cpu then gicUpdateFrom n (cpu + 1) (output s cpu (decision s cpu))
      else output s cpu (decision s cpu) := by
  have cleared : findBest { s with currentPending := set s.currentPending cpu 1023 } cpu =
      findBest s cpu := rfl
  by_cases on : On s cpu
  · have go : (!s.enabled || !s.cpuEnabled cpu) = false := by simp [on.1, on.2]
    simp only [gicUpdateFrom, go, cleared, if_pos on, Bool.false_eq_true, if_false]
    by_cases le : (findBest s cpu).1 ≤ s.priorityMask cpu
    · simp [le, decision, on, output, setParent, set_set]
    · simp [le, decision, output, setParent]
  · have stop : (!s.enabled || !s.cpuEnabled cpu) = true := by
      by_contra h
      simp only [Bool.or_eq_true, Bool.not_eq_true', not_or, Bool.not_eq_false] at h
      exact on h
    simp [gicUpdateFrom, stop, on, decision, output, setParent]

/-- `gic_update` changes nothing but the lines and `current_pending`. -/
theorem gicUpdateFrom_frame (n cpu : Nat) (s : State c) :
    gicUpdateFrom n cpu s =
      { s with
        parentIrq := (gicUpdateFrom n cpu s).parentIrq
        currentPending := (gicUpdateFrom n cpu s).currentPending } := by
  induction n generalizing cpu s with
  | zero => rfl
  | succ n ih =>
    rw [gicUpdateFrom_succ]
    split
    · rw [ih]; rfl
    · rfl

theorem cached_gicUpdateFrom (n cpu j : Nat) (s : State c) :
    cached (gicUpdateFrom n cpu s) j =
      if cpu ≤ j ∧ j < cpu + n ∧ ∀ d, d < j → cpu ≤ d → On s d then decision s j
      else cached s j := by
  induction n generalizing cpu s with
  | zero => rw [if_neg (by omega)]; rfl
  | succ n ih =>
    rw [gicUpdateFrom_succ]
    by_cases on : On s cpu
    · have ahead : (∀ d, d < j → cpu + 1 ≤ d → On (output s cpu (decision s cpu)) d) ↔
          ∀ d, d < j → cpu ≤ d → On s d := by
        refine ⟨fun h d hd hle => ?_, fun h d hd hle => h d hd (by omega)⟩
        obtain rfl | hlt := Nat.eq_or_lt_of_le hle
        · exact on
        · exact h d hd hlt
      rw [if_pos on, ih, cached_output]
      by_cases here : j = cpu
      · subst here
        rw [if_neg (by omega), if_pos rfl, if_pos ⟨le_rfl, by omega, fun d hd hle => by omega⟩]
      · rw [if_neg here]
        refine if_congr ?_ rfl rfl
        rw [ahead, ← and_assoc, ← and_assoc]
        exact and_congr_left fun _ => by omega
    · rw [if_neg on, cached_output]
      by_cases here : j = cpu
      · subst here
        rw [if_pos rfl, if_pos ⟨le_rfl, by omega, fun d hd hle => by omega⟩]
      · rw [if_neg here, if_neg]
        rintro ⟨hle, _, h⟩
        exact on (h cpu (by omega) le_rfl)

/-! ## What `gic_update` leaves alone -/

theorem gicUpdate_frame : gicUpdate s = { s with
        parentIrq := (gicUpdate s).parentIrq
        currentPending := (gicUpdate s).currentPending } :=
  gicUpdateFrom_frame c.numCpu 0 s

@[simp] theorem gicUpdate_priorityMask :
    (gicUpdate s).priorityMask = s.priorityMask := by rw [gicUpdate_frame]

@[simp] theorem gicUpdate_runningIrq : (gicUpdate s).runningIrq = s.runningIrq := by
  rw [gicUpdate_frame]

@[simp] theorem gicUpdate_runningPriority :
    (gicUpdate s).runningPriority = s.runningPriority := by rw [gicUpdate_frame]

@[simp] theorem gicUpdate_lastActive : (gicUpdate s).lastActive = s.lastActive := by
  rw [gicUpdate_frame]

@[simp] theorem decision_gicUpdate (cpu : Nat) :
    decision (gicUpdate s) cpu = decision s cpu := by rw [gicUpdate_frame]; rfl

@[simp] theorem on_gicUpdate (cpu : Nat) : On (gicUpdate s) cpu ↔ On s cpu := by
  rw [gicUpdate_frame]; rfl

@[simp] theorem behind_gicUpdate (cpu : Nat) :
    Behind (gicUpdate s) cpu ↔ Behind s cpu := by simp [Behind]

/-- `gic_update` writes out the decision for the CPUs up to the first disabled
one, and leaves the others as they were. -/
theorem cached_gicUpdate (hlt : cpu < c.numCpu) :
    cached (gicUpdate s) cpu = if Behind s cpu then cached s cpu else decision s cpu := by
  rw [gicUpdate, cached_gicUpdateFrom]
  by_cases behind : Behind s cpu
  · rw [if_pos behind, if_neg]
    rintro ⟨_, _, h⟩
    obtain ⟨d, hd, off⟩ := behind
    exact off (h d hd (Nat.zero_le d))
  · rw [if_neg behind, if_pos]
    refine ⟨Nat.zero_le cpu, by omega, fun d hd _ => ?_⟩
    by_contra off
    exact behind ⟨d, hd, off⟩

end

end QemuStm32.Gic
