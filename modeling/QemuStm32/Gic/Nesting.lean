import QemuStm32.Gic.Search

/-!
# The list of active interrupts

Each CPU's active interrupts form a list from `running_irq` through
`last_active` to 1023. An acknowledge pushes on it without asking whether the
interrupt is on it already.

`nests_along_iff`: every list ends, every completion returns and completing the
running interrupt unwinds the list, throughout a run, exactly when no
acknowledge of the run takes an interrupt that is still active.
-/

namespace QemuStm32.Gic

open Linked List Runs

section
variable {c : Config}

/-- The list of `cpu` ends at 1023, and its elements are interrupt numbers. -/
def Ends (s : State c) (cpu : Nat) : Prop :=
  ∃ l, Chain (s.next cpu) 1023 (s.runningIrq cpu) l ∧ ∀ i ∈ l, i < c.nirq

/-- The active interrupts of `cpu`, the running one first. -/
def activeIrqs (s : State c) (cpu : Nat) : List Nat :=
  walk (s.next cpu) 1023 (c.nirq + 1) (s.runningIrq cpu)

variable {s t : State c} {cpu j irq : Nat} {l : List Nat}

theorem activeIrqs_eq (h : Chain (s.next cpu) 1023 (s.runningIrq cpu) l)
    (lt : ∀ i ∈ l, i < c.nirq) : activeIrqs s cpu = l := by
  have := h.length_le lt
  exact h.walk_eq (by omega)

/-! ## What keeps the lists ending -/

theorem Ends.congr (h : Ends s cpu) (next : t.next cpu = s.next cpu)
    (running : t.runningIrq cpu = s.runningIrq cpu) : Ends t cpu := by
  unfold Ends
  rw [next, running]
  exact h

theorem gicUpdate_next (s : State c) (cpu : Nat) : (gicUpdate s).next cpu = s.next cpu := by
  unfold State.next
  rw [gicUpdate_lastActive]

theorem Ends.update (h : Ends s cpu) : Ends (gicUpdate s) cpu :=
  h.congr (gicUpdate_next s cpu) (by rw [gicUpdate_runningIrq])

theorem Ends.frame {u : State c} (h : Ends s cpu) (frame : RegisterFrame s u) : Ends u cpu :=
  h.congr (frame.next cpu) (by rw [frame.runningIrq])

theorem running_other (s : State c) (irq : Nat) (hj : j ≠ cpu) :
    (running s cpu irq).runningIrq j = s.runningIrq j := set_other _ _ hj

section
variable (hl : Chain (s.next cpu) 1023 (s.runningIrq cpu) l) (lt : ∀ i ∈ l, i < c.nirq)
include hl lt

/-- Unlinking what the search found takes the interrupt out of the list. -/
theorem unlink_chain {found : Option Nat} (other : irq ≠ s.runningIrq cpu)
    (active : s.runningIrq cpu ≠ 1023)
    (hf : findActive (s.next cpu) irq (c.nirq + 1) (s.runningIrq cpu) = .ok found) :
    Chain ((unlink s cpu irq found).next cpu) 1023 (s.runningIrq cpu) (l.erase irq) := by
  have := hl.length_le lt
  have enough : l.length ≤ c.nirq + 1 := by omega
  obtain ⟨found, hf', spec, absent⟩ := findActive_of_chain irq hl active enough
  cases hf.symm.trans hf'
  cases found with
  | none =>
    have notMem : irq ∉ l := by
      intro mem
      obtain ⟨tmp, at_tmp, link⟩ := (hl.pred mem).resolve_left other
      exact hl.stop_notMem (absent rfl tmp at_tmp link ▸ mem)
    rw [erase_of_not_mem notMem]
    exact hl
  | some tmp =>
    obtain ⟨mem, hit, ne⟩ := spec tmp rfl
    have shorter := hl.unlink mem (hit ▸ ne)
    rw [hit] at shorter
    change Chain ((setLastActive s tmp cpu (s.next cpu irq)).next cpu) 1023 _ _
    rw [setLastActive_next]
    exact shorter

/-- A completion takes its interrupt out of the list. -/
theorem gicCompleteIrq_erases (ht : gicCompleteIrq s cpu irq = .ok t) :
    Chain (t.next cpu) 1023 (t.runningIrq cpu) (l.erase irq) := by
  obtain ⟨idle, rfl⟩ | ⟨active, u, frame, ⟨rfl, rfl⟩ | ⟨other, found, hf, hcase⟩⟩ :=
    gicCompleteIrq_cases ht
  · rw [idle] at hl ⊢
    obtain rfl := hl.unique .nil
    exact .nil
  · obtain ⟨r, rfl, rest⟩ := hl.tail active
    have top : (running u cpu (s.lastActive (s.runningIrq cpu) cpu)).runningIrq cpu =
        s.next cpu (s.runningIrq cpu) := set_same _ _ _
    rw [gicUpdate_next, gicUpdate_runningIrq, top, erase_cons_head]
    exact (frame.next cpu).symm ▸ rest
  · rw [← frame.next cpu, ← frame.runningIrq] at hl
    have unlinked := unlink_chain hl lt (by rw [frame.runningIrq]; exact other)
      (by rw [frame.runningIrq]; exact active) (by rw [frame.next, frame.runningIrq]; exact hf)
    have same : (unlink u cpu irq found).runningIrq = u.runningIrq := by
      cases found <;> rfl
    rw [← same] at unlinked
    obtain rfl | ⟨_, rfl⟩ := hcase
    · rw [gicUpdate_next, gicUpdate_runningIrq]
      exact unlinked
    · exact unlinked

end

theorem gicCompleteIrq_other (hj : j ≠ cpu) (ht : gicCompleteIrq s cpu irq = .ok t) :
    t.next j = s.next j ∧ t.runningIrq j = s.runningIrq j := by
  obtain ⟨_, rfl⟩ | ⟨_, u, frame, ⟨_, rfl⟩ | ⟨_, found, _, hcase⟩⟩ := gicCompleteIrq_cases ht
  · exact ⟨rfl, rfl⟩
  · rw [gicUpdate_next, gicUpdate_runningIrq, running_other u _ hj, frame.runningIrq]
    exact ⟨frame.next j, rfl⟩
  · have unlinked : (unlink u cpu irq found).next j = s.next j ∧
        (unlink u cpu irq found).runningIrq j = s.runningIrq j := by
      cases found with
      | none => exact ⟨frame.next j, congrFun frame.runningIrq j⟩
      | some tmp =>
        exact ⟨(setLastActive_next_other u tmp _ hj).trans (frame.next j),
          congrFun frame.runningIrq j⟩
    obtain rfl | ⟨_, rfl⟩ := hcase
    · rw [gicUpdate_next, gicUpdate_runningIrq]
      exact unlinked
    · exact unlinked

theorem Change.ends (h : Ends s cpu) (change : Change s t) : Ends t cpu := by
  cases change with
  | registers frame => exact (h.frame frame).update
  | enable b | cpuEnable cpu b | mask cpu value _ => exact Ends.update h
  | complete j irq ht =>
    by_cases hj : cpu = j
    · subst hj
      obtain ⟨l, hl, lt⟩ := h
      exact ⟨_, gicCompleteIrq_erases hl lt ht, fun i hi => lt i (mem_of_mem_erase hi)⟩
    · obtain ⟨next, running⟩ := gicCompleteIrq_other hj ht
      exact h.congr next running

theorem Changes.ends (h : Ends s cpu) (changes : Changes s t) : Ends t cpu := by
  induction changes with
  | same => exact h
  | one change => exact change.ends h
  | more _ frame ih => exact (ih.frame frame).update

/-- An acknowledge pushes the pending interrupt on the list. -/
theorem gicAcknowledgeIrq_pushes (taken : Taken s cpu) :
    (gicAcknowledgeIrq s cpu).2.next cpu =
        Function.update (s.next cpu) (s.currentPending cpu) (s.runningIrq cpu) ∧
      (gicAcknowledgeIrq s cpu).2.runningIrq cpu = s.currentPending cpu := by
  obtain ⟨idle, _⟩ | ⟨_, u, frame, e⟩ := gicAcknowledgeIrq_cases s cpu
  · exact absurd taken idle
  rw [e]
  constructor
  · rw [gicUpdate_next, ← setLastActive_next, ← frame.next]
    rfl
  · rw [gicUpdate_runningIrq]
    exact set_same _ _ _

/-- An acknowledge keeps all lists ending exactly when the interrupt it takes is
not active. -/
theorem gicAcknowledgeIrq_ends_iff (inRange : InRange s) (hlt : cpu < c.numCpu)
    (h : ∀ j, j < c.numCpu → Ends s j) :
    (∀ j, j < c.numCpu → Ends (gicAcknowledgeIrq s cpu).2 j) ↔
      (Taken s cpu → s.currentPending cpu ∉ activeIrqs s cpu) := by
  obtain ⟨l, hl, lt⟩ := h cpu hlt
  rw [activeIrqs_eq hl lt]
  obtain ⟨idle, e⟩ | ⟨taken, u, frame, e⟩ := gicAcknowledgeIrq_cases s cpu
  · rw [e]
    exact ⟨fun _ t => absurd t idle, fun _ => h⟩
  obtain ⟨nextCpu, runningCpu⟩ := gicAcknowledgeIrq_pushes taken
  constructor
  · intro all _ mem
    obtain ⟨l', hl', _⟩ := all cpu hlt
    rw [nextCpu, runningCpu] at hl'
    exact hl.push_endless mem hl'
  intro fresh j hj
  by_cases hjc : j = cpu
  · subst hjc
    refine ⟨s.currentPending j :: l, ?_, fun i hi => ?_⟩
    · rw [nextCpu, runningCpu]
      exact hl.push taken.1 (fresh taken)
    · obtain rfl | hi := mem_cons.mp hi
      · exact (inRange.pending j).resolve_left taken.1
      · exact lt i hi
  · rw [e]
    refine Ends.update ((h j hj).congr ?_ ?_)
    · exact (frame.next j).trans (setLastActive_next_other s _ _ hjc)
    · rw [running_other u _ hjc, frame.runningIrq]
      rfl

/-! ## Completion -/

theorem gicCompleteIrq_ok (h : Ends s cpu) (legal : irq = 1023 ∨ irq < c.nirq) :
    ∃ t, gicCompleteIrq s cpu irq = .ok t := by
  obtain ⟨l, hl, lt⟩ := h
  have short := hl.length_le lt
  have frame := repend_frame s cpu irq
  unfold gicCompleteIrq
  split
  · exact ⟨s, rfl⟩
  rename_i active
  rw [if_neg (by omega)]
  dsimp only
  split
  · rw [frame.lastActive, frame.runningIrq]
    have enough : l.length ≤ c.nirq + 1 := by omega
    obtain ⟨found, hf, _⟩ := findActive_of_chain irq hl active enough
    exact ⟨_, bind_ok_iff.mpr ⟨found, hf, rfl⟩⟩
  · exact ⟨_, rfl⟩

/-- Completing the running interrupt goes back to the one before it. -/
theorem gicCompleteIrq_running (h : Ends s cpu) (active : s.runningIrq cpu ≠ 1023)
    (legal : s.runningIrq cpu < c.nirq) :
    ∃ t, gicCompleteIrq s cpu (s.runningIrq cpu) = .ok t ∧ t.next cpu = s.next cpu ∧
      t.runningIrq cpu = s.next cpu (s.runningIrq cpu) := by
  obtain ⟨t, ht⟩ := gicCompleteIrq_ok h (.inr legal)
  refine ⟨t, ht, ?_⟩
  obtain ⟨idle, _⟩ | ⟨_, u, frame, ⟨_, rfl⟩ | ⟨other, _⟩⟩ := gicCompleteIrq_cases ht
  · exact absurd idle active
  · refine ⟨?_, ?_⟩
    · rw [gicUpdate_next, ← frame.next]
      rfl
    · rw [gicUpdate_runningIrq]
      exact set_same _ _ _
  · exact absurd rfl other

/-- Following `last_active` from the running interrupt of `cpu` leads to `irq` or
to the end of the list. -/
def LeadsTo (s : State c) (cpu irq : Nat) : Prop :=
  ∃ n, (s.next cpu)^[n] (s.runningIrq cpu) = irq ∨ (s.next cpu)^[n] (s.runningIrq cpu) = 1023

/-- A completion returns exactly when the list leads to its interrupt or ends. -/
theorem gicCompleteIrq_returns_iff (inRange : InRange s) (active : s.runningIrq cpu ≠ 1023)
    (legal : irq < c.nirq) : (∃ t, gicCompleteIrq s cpu irq = .ok t) ↔ LeadsTo s cpu irq := by
  have frame := repend_frame s cpu irq
  have small := c.nirq_lt
  have start := (inRange.running cpu).resolve_left active
  unfold gicCompleteIrq
  rw [if_neg active, if_neg (by omega)]
  dsimp only
  rw [frame.runningIrq, frame.lastActive]
  by_cases self : irq = s.runningIrq cpu
  · rw [if_neg (not_not.mpr self)]
    exact ⟨fun _ => ⟨0, .inl self.symm⟩, fun _ => ⟨_, rfl⟩⟩
  rw [if_pos self]
  have search : LeadsTo s cpu irq ↔
      ∃ rounds found, findActive (s.next cpu) irq rounds (s.runningIrq cpu) = .ok found := by
    rw [findActive_iff_iterate]
    constructor
    · rintro ⟨n, hn⟩
      cases n with
      | zero => exact absurd hn (not_or.mpr ⟨Ne.symm self, active⟩)
      | succ n => exact ⟨n, hn⟩
    · rintro ⟨n, hn⟩
      exact ⟨n + 1, hn⟩
  rw [search]
  constructor
  · rintro ⟨t, ht⟩
    obtain ⟨found, hf, _⟩ := bind_ok_iff.mp ht
    exact ⟨_, found, hf⟩
  · rintro ⟨rounds, found, hf⟩
    cases hn : findActive (s.next cpu) irq (c.nirq + 1) (s.runningIrq cpu) with
    | ok found => exact ⟨_, bind_ok_iff.mpr ⟨found, hn, rfl⟩⟩
    | error f =>
      rw [findActive_error hn] at hn
      have endless := findActive_endless start small.le (inRange.links cpu) hn rounds
      cases hf.symm.trans endless

/-- The running interrupt of `cpu` completed `n` times. -/
def unwind (cpu : Nat) : Nat → State c → Except Fault (State c)
  | 0, s => .ok s
  | n + 1, s => do
    let s ← gicCompleteIrq s cpu (s.runningIrq cpu)
    unwind cpu n s

/-- Completing the running interrupt as often as there are active ones leaves
the CPU idle. -/
theorem unwind_idle (inRange : InRange s) (h : Chain (s.next cpu) 1023 (s.runningIrq cpu) l)
    (lt : ∀ i ∈ l, i < c.nirq) :
    ∃ t, unwind cpu l.length s = .ok t ∧ t.runningIrq cpu = 1023 ∧
      t.runningPriority cpu = 0x100 := by
  induction l generalizing s with
  | nil =>
    have idle : s.runningIrq cpu = 1023 := by
      by_contra active
      obtain ⟨r, hr, _⟩ := h.tail active
      cases hr
    exact ⟨s, rfl, idle, inRange.idle cpu idle⟩
  | cons a l ih =>
    have active : s.runningIrq cpu ≠ 1023 := by
      intro idle
      rw [idle] at h
      exact cons_ne_nil a l (h.unique .nil)
    obtain ⟨r, hr, rest⟩ := h.tail active
    cases hr
    obtain ⟨t, ht, next, running⟩ := gicCompleteIrq_running ⟨_, h, lt⟩ active (lt _ mem_cons_self)
    have inRange' : InRange t := (Change.complete cpu _ ht).inRange inRange
    obtain ⟨u, hu, idle⟩ := ih inRange' (by rw [next, running]; exact rest)
      fun i hi => lt i (.tail _ hi)
    exact ⟨u, bind_ok_iff.mpr ⟨t, ht, hu⟩, idle⟩

/-! ## Runs -/

/-- The list of `cpu` visits distinct interrupt numbers and ends at 1023; the
search of a completion ends and completions return; completing the running
interrupt repeatedly leaves the CPU idle. -/
structure Nests (s : State c) (cpu : Nat) : Prop where
  ends : ∃ l, Chain (s.next cpu) 1023 (s.runningIrq cpu) l ∧ l.Nodup ∧ ∀ i ∈ l, i < c.nirq
  search : ∀ irq, s.runningIrq cpu ≠ 1023 →
    ∃ rounds found, findActive (s.next cpu) irq rounds (s.runningIrq cpu) = .ok found
  completes : ∀ irq, irq = 1023 ∨ irq < c.nirq → ∃ t, gicCompleteIrq s cpu irq = .ok t
  unwinds : ∃ n t, unwind cpu n s = .ok t ∧ t.runningIrq cpu = 1023 ∧
    t.runningPriority cpu = 0x100

theorem nests_iff_ends (inRange : InRange s) (cpu : Nat) : Nests s cpu ↔ Ends s cpu := by
  constructor
  · rintro ⟨⟨l, hl, _, lt⟩, _⟩
    exact ⟨l, hl, lt⟩
  rintro ⟨l, hl, lt⟩
  refine ⟨⟨l, hl, hl.nodup, lt⟩, fun irq active => ?_, fun irq legal => ?_, l.length, ?_⟩
  · obtain ⟨found, hf, _⟩ := findActive_of_chain irq hl active le_rfl
    exact ⟨l.length, found, hf⟩
  · exact gicCompleteIrq_ok ⟨l, hl, lt⟩ legal
  · exact unwind_idle inRange hl lt

/-- An acknowledge takes no interrupt that is still active on its CPU. -/
def AcknowledgesFresh (s : State c) (e : Event c) : Prop :=
  ∀ cpu, IsAcknowledge e cpu → Taken s cpu → s.currentPending cpu ∉ activeIrqs s cpu

theorem acknowledgesFresh_iff (inRange : InRange s) (h : ∀ cpu, cpu < c.numCpu → Nests s cpu)
    (e : Event c) :
    AcknowledgesFresh s e ↔
      ∀ t, gicStep s e = .ok t → ∀ cpu, cpu < c.numCpu → Nests t cpu := by
  have ends : ∀ cpu, cpu < c.numCpu → Ends s cpu :=
    fun cpu hlt => (nests_iff_ends inRange cpu).mp (h cpu hlt)
  constructor
  · intro fresh t ht cpu hlt
    refine (nests_iff_ends (gicStep_inRange inRange ht) cpu).mpr ?_
    obtain changes | ⟨j, ack, rfl⟩ := gicStep_changes ht
    · exact changes.ends (ends cpu hlt)
    · exact (gicAcknowledgeIrq_ends_iff inRange ack.1 ends).mpr (fresh j ack) cpu hlt
  · intro all cpu ack
    have ht := ack.step s
    refine (gicAcknowledgeIrq_ends_iff inRange ack.1 ends).mp fun j hj => ?_
    exact (nests_iff_ends (gicStep_inRange inRange ht) j).mp (all _ ht j hj)

theorem gicInit_inRange (c : Config) : InRange (gicInit c) := by
  have := c.nirq_ge
  refine ⟨fun cpu => ?_, fun cpu => ?_, fun cpu i => ?_, fun cpu => ?_⟩
  · simp only [gicInit, gicReset, State.zero]; split <;> omega
  · simp only [gicInit, gicReset, State.zero]; split <;> omega
  · exact .inr (by simp only [State.next, gicInit, gicReset, State.zero]; omega)
  · simp only [gicInit, gicReset, State.zero]; split <;> simp

theorem gicInit_ends (c : Config) (hlt : cpu < c.numCpu) : Ends (gicInit c) cpu := by
  refine ⟨[], ?_, nofun⟩
  have idle : (gicInit c).runningIrq cpu = 1023 := if_pos hlt
  rw [idle]
  exact .nil

/-- Along any run from reset, the lists of all CPUs end and completions return
and unwind them, throughout, precisely when every acknowledge of the run takes an
interrupt that is not active. -/
theorem nests_along_iff (c : Config) (events : List (Event c)) :
    Always gicStep (fun s => ∀ cpu, cpu < c.numCpu → Nests s cpu) (gicInit c) events ↔
      StepsMeet gicStep AcknowledgesFresh (gicInit c) events := by
  refine always_iff_stepsMeet (fun s e t h ht => gicStep_inRange h ht)
    (fun s e inRange h => acknowledgesFresh_iff inRange h e) (gicInit_inRange c) fun cpu hlt => ?_
  exact (nests_iff_ends (gicInit_inRange c) cpu).mpr (gicInit_ends c hlt)

/-- In every state of a run, a completion that is reported endless is so: no
number of rounds ends its search. -/
theorem complete_endless_along (c : Config) (events : List (Event c)) :
    Always gicStep (fun s => ∀ cpu irq, gicCompleteIrq s cpu irq = .error .endlessLoop →
      ∀ rounds, findActive (s.next cpu) irq rounds (s.runningIrq cpu) = .error .endlessLoop)
      (gicInit c) events := by
  refine (always_of_keeps (fun s e t h ht => gicStep_inRange h ht) events
    (gicInit_inRange c)).mono ?_
  intro s inRange cpu irq h
  have frame := repend_frame s cpu irq
  have small := c.nirq_lt
  unfold gicCompleteIrq at h
  split at h
  · cases h
  rename_i active
  split at h
  · cases h
  dsimp only at h
  split at h
  · rw [frame.lastActive, frame.runningIrq] at h
    refine findActive_endless ((inRange.running cpu).resolve_left active) small.le
      (inRange.links cpu) ?_
    cases hf : findActive (s.next cpu) irq (c.nirq + 1) (s.runningIrq cpu) with
    | error f => rw [findActive_error hf]
    | ok found =>
      unfold State.next at hf
      rw [hf] at h
      cases h
  · cases h

/-- Software interrupt 1 is taken at priority 0x80, given priority 0x40 by the
guest while it is active, raised and taken again. -/
def retake : List (Event realview) :=
  let cpu : Fin realview.numCpu := ⟨0, by decide⟩
  [.writeb cpu 0 1, .cpuWrite cpu 0x00 1, .writeb cpu 0x401 0x80, .writel cpu 0xf00 0x02000001,
    .cpuRead cpu 0x0c, .writeb cpu 0x401 0x40, .writel cpu 0xf00 0x02000001, .cpuRead cpu 0x0c]

/-- Interrupt 1 is then its own successor, and completing any other interrupt
searches for ever. -/
theorem retaken_interrupt_endless :
    ¬ ∀ (c : Config) (events : List (Event c)),
      Always gicStep (fun s => ∀ cpu, cpu < c.numCpu → Nests s cpu) (gicInit c) events := by
  intro h
  have observed : (run gicStep (gicInit realview) retake).toOption.map
      (fun t => (t.runningIrq 0, t.lastActive 1 0)) = some (1, 1) := by
    decide +kernel
  obtain ⟨t, ht, running, self⟩ := exists_of_observed_pair observed
  obtain ⟨l, hl, _⟩ := ((h realview retake).final ht 0 (by decide)).ends
  rw [running] at hl
  obtain ⟨r, rfl, rest⟩ := hl.tail (by decide)
  have loop : Chain (t.next 0) 1023 1 r := by
    have step : t.next 0 1 = 1 := self
    rwa [step] at rest
  exact cons_ne_self 1 r (hl.unique loop)

end

end QemuStm32.Gic
