import QemuStm32.Gic.Changes
import QemuStm32.Gic.Update
import QemuStm32.Lib.Linked

/-!
# The search through the active interrupts

The loop of `gic_complete_irq` as a walk along `last_active`, and the range of
the interrupt numbers it can meet in any run.
-/

namespace QemuStm32.Gic

open Runs Linked

section
variable {c : Config}

/-- The successor function of the list of `cpu`. -/
def State.next (s : State c) (cpu : Nat) : Nat → Nat := fun i => s.lastActive i cpu

theorem RegisterFrame.next {s u : State c} (h : RegisterFrame s u) (cpu : Nat) :
    u.next cpu = s.next cpu := by
  unfold State.next
  rw [h.lastActive]

/-! ## The search loop -/

variable {a rounds : Nat} {l : List Nat} {next : Nat → Nat}

/-- Along a list that ends, the search ends: at an element whose successor is `irq`, or at the
end of a list without one. -/
theorem findActive_of_chain (irq : Nat) (h : Chain next 1023 a l)
    (ne : a ≠ 1023) (enough : l.length ≤ rounds) :
    ∃ found, findActive next irq rounds a = .ok found ∧
      (∀ tmp, found = some tmp → tmp ∈ l ∧ next tmp = irq ∧ irq ≠ 1023) ∧
      (found = none → ∀ tmp ∈ l, next tmp = irq → irq = 1023) := by
  induction h generalizing rounds with
  | nil => exact absurd rfl ne
  | @cons a l _ rest ih =>
    cases rounds with
    | zero => simp at enough
    | succ rounds =>
      unfold findActive
      by_cases last : next a = 1023
      · refine ⟨none, by rw [if_pos last], nofun, fun _ tmp mem hit => ?_⟩
        rw [last] at rest
        obtain rfl := rest.unique .nil
        obtain rfl := List.mem_singleton.mp mem
        exact hit.symm.trans last
      · rw [if_neg last]
        by_cases hit : next a = irq
        · refine ⟨some a, by rw [if_pos hit], fun tmp htmp => ?_, nofun⟩
          cases htmp
          exact ⟨List.mem_cons_self, hit, hit ▸ last⟩
        · rw [if_neg hit]
          obtain ⟨found, hf, spec, absent⟩ := ih last (by simpa using enough)
          refine ⟨found, hf, fun tmp htmp => ?_, fun hn tmp mem link => ?_⟩
          · obtain ⟨mem, rest⟩ := spec tmp htmp
            exact ⟨.tail _ mem, rest⟩
          · obtain rfl | mem := List.mem_cons.mp mem
            · exact absurd link hit
            · exact absent hn tmp mem link

/-- The successor the search follows: it stops short of `irq`. -/
def searchNext (next : Nat → Nat) (irq i : Nat) : Nat := if next i = irq then 1023 else next i

variable {irq : Nat} {s u t : State c}

theorem chain_of_findActive {found : Option Nat} (ne : a ≠ 1023)
    (h : findActive next irq rounds a = .ok found) : ∃ l, Chain (searchNext next irq) 1023 a l := by
  induction rounds generalizing a with
  | zero => cases h
  | succ rounds ih =>
    unfold findActive at h
    by_cases hit : next a = irq ∨ next a = 1023
    · have stops : searchNext next irq a = 1023 := by
        unfold searchNext
        split <;> omega
      exact ⟨[a], .cons ne (stops ▸ .nil)⟩
    · obtain ⟨miss, last⟩ := not_or.mp hit
      rw [if_neg last, if_neg miss] at h
      obtain ⟨l, hl⟩ := ih last h
      refine ⟨a :: l, .cons ne ?_⟩
      rwa [searchNext, if_neg miss]

theorem findActive_of_searchChain (h : Chain (searchNext next irq) 1023 a l) (ne : a ≠ 1023)
    (enough : l.length ≤ rounds) : ∃ found, findActive next irq rounds a = .ok found := by
  induction h generalizing rounds with
  | nil => exact absurd rfl ne
  | @cons a l _ rest ih =>
    cases rounds with
    | zero => simp at enough
    | succ rounds =>
      unfold findActive
      split
      · exact ⟨none, rfl⟩
      rename_i last
      split
      · exact ⟨some a, rfl⟩
      · rename_i miss
        rw [searchNext, if_neg miss] at ih
        exact ih last (by simpa using enough)

theorem findActive_error {f : Fault}
    (h : findActive next irq rounds a = .error f) : f = .endlessLoop := by
  induction rounds generalizing a with
  | zero => cases h; rfl
  | succ rounds ih =>
    unfold findActive at h
    split at h
    · cases h
    · split at h
      · cases h
      · exact ih h

/-- A search that is not over after more rounds than there are interrupts is
never over. -/
theorem findActive_endless {n : Nat} (start : a < n) (hn : n ≤ 1023)
    (inside : ∀ i, next i = 1023 ∨ next i < n)
    (h : findActive next irq (n + 1) a = .error .endlessLoop) (rounds : Nat) :
    findActive next irq rounds a = .error .endlessLoop := by
  cases hr : findActive next irq rounds a with
  | error f => rw [findActive_error hr]
  | ok found =>
    have ne : a ≠ 1023 := by omega
    obtain ⟨l, hl⟩ := chain_of_findActive ne hr
    have bound : ∀ i, i < n → searchNext next irq i = 1023 ∨ searchNext next irq i < n := by
      intro i _
      unfold searchNext
      split
      · exact .inl rfl
      · exact inside i
    have short := hl.length_le (hl.all (.inr start) bound)
    have enough : l.length ≤ n + 1 := by omega
    obtain ⟨found, hf⟩ := findActive_of_searchChain hl ne enough
    cases hf.symm.trans h

/-- The search ends when the list leads to `irq` or to 1023. -/
theorem findActive_iff_iterate :
    (∃ rounds found, findActive next irq rounds a = .ok found) ↔
      ∃ n, next^[n] (next a) = irq ∨ next^[n] (next a) = 1023 := by
  constructor
  · rintro ⟨rounds, found, h⟩
    induction rounds generalizing a with
    | zero => cases h
    | succ rounds ih =>
      unfold findActive at h
      by_cases last : next a = 1023
      · exact ⟨0, .inr last⟩
      by_cases hit : next a = irq
      · exact ⟨0, .inl hit⟩
      rw [if_neg last, if_neg hit] at h
      obtain ⟨n, hn⟩ := ih h
      exact ⟨n + 1, hn⟩
  · rintro ⟨n, hn⟩
    induction n generalizing a with
    | zero =>
      refine ⟨1, ?_⟩
      unfold findActive
      by_cases last : next a = 1023
      · exact ⟨none, if_pos last⟩
      · have hit : next a = irq := hn.resolve_right last
        exact ⟨some a, by rw [if_neg last, if_pos hit]⟩
    | succ n ih =>
      obtain ⟨rounds, found, h⟩ := ih hn
      refine ⟨rounds + 1, ?_⟩
      unfold findActive
      split
      · exact ⟨none, rfl⟩
      · split
        · exact ⟨some a, rfl⟩
        · exact ⟨found, h⟩

/-! ## Interrupt numbers stay in range -/

/-- Every recorded interrupt is 1023 or an interrupt number, and an idle CPU
runs at priority 0x100. -/
structure InRange (s : State c) : Prop where
  pending : ∀ cpu, s.currentPending cpu = 1023 ∨ s.currentPending cpu < c.nirq
  running : ∀ cpu, s.runningIrq cpu = 1023 ∨ s.runningIrq cpu < c.nirq
  links : ∀ cpu i, s.next cpu i = 1023 ∨ s.next cpu i < c.nirq
  idle : ∀ cpu, s.runningIrq cpu = 1023 → s.runningPriority cpu = 0x100

theorem decision_inRange (s : State c) (cpu : Nat) :
    (decision s cpu).1 = 1023 ∨ (decision s cpu).1 < c.nirq := by
  unfold decision
  split
  · obtain ⟨e, _⟩ | ⟨k, e, best, _⟩ := findBest_spec s cpu <;> rw [e]
    · exact .inl rfl
    · exact .inr best.1.1
  · exact .inl rfl

theorem InRange.update (h : InRange s) : InRange (gicUpdate s) where
  pending cpu := by
    have e : (gicUpdate s).currentPending cpu = (cached (gicUpdate s) cpu).1 := rfl
    rw [e, gicUpdate, cached_gicUpdateFrom]
    split
    · exact decision_inRange s cpu
    · exact h.pending cpu
  running cpu := by rw [gicUpdate_runningIrq]; exact h.running cpu
  links cpu i := by rw [State.next, gicUpdate_lastActive]; exact h.links cpu i
  idle cpu := by rw [gicUpdate_runningIrq, gicUpdate_runningPriority]; exact h.idle cpu

theorem InRange.frame (h : InRange s) (frame : RegisterFrame s u) : InRange u where
  pending cpu := by rw [frame.currentPending]; exact h.pending cpu
  running cpu := by rw [frame.runningIrq]; exact h.running cpu
  links cpu i := by rw [frame.next]; exact h.links cpu i
  idle cpu := by rw [frame.runningIrq, frame.runningPriority]; exact h.idle cpu

/-- One entry of the list of `cpu` replaced; the lists of other CPUs stay. -/
theorem setLastActive_next (s : State c) (irq cpu value : Nat) :
    (setLastActive s irq cpu value).next cpu = Function.update (s.next cpu) irq value := by
  funext i
  by_cases hi : i = irq
  · subst hi; simp [State.next, setLastActive]
  · simp [State.next, setLastActive, set_other _ _ hi, hi]

theorem setLastActive_next_other (s : State c) (irq value : Nat) {cpu j : Nat} (hj : j ≠ cpu) :
    (setLastActive s irq cpu value).next j = s.next j := by
  funext i
  by_cases hi : i = irq
  · subst hi; simp [State.next, setLastActive, set_other _ _ hj]
  · simp [State.next, setLastActive, set_other _ _ hi]

section
variable (h : InRange s)
include h

theorem InRange.setLastActive (irq cpu : Nat) {value : Nat}
    (hv : value = 1023 ∨ value < c.nirq) : InRange (setLastActive s irq cpu value) where
  pending := h.pending
  running := h.running
  links j i := by
    by_cases hj : j = cpu
    · subst hj
      rw [setLastActive_next]
      by_cases hi : i = irq
      · rw [hi, Function.update_self]; exact hv
      · rw [Function.update_of_ne hi]; exact h.links j i
    · rw [setLastActive_next_other s irq value hj]; exact h.links j i
  idle := h.idle

theorem InRange.setRunning (cpu : Nat) (hi : irq = 1023 ∨ irq < c.nirq) :
    InRange (Gic.running s cpu irq) where
  pending := h.pending
  running j := by
    by_cases hj : j = cpu
    · subst hj; simpa [Gic.running] using hi
    · simpa [Gic.running, set_other _ _ hj] using h.running j
  links := h.links
  idle j := by
    by_cases hj : j = cpu
    · subst hj
      simp only [Gic.running, set_same]
      exact fun e => if_pos e
    · simpa [Gic.running, set_other _ _ hj] using h.idle j

theorem InRange.unlink (cpu irq : Nat) (found : Option Nat) : InRange (unlink s cpu irq found) := by
  cases found with
  | none => exact h
  | some tmp => exact h.setLastActive tmp cpu (h.links cpu irq)

theorem Change.inRange (change : Change s t) : InRange t := by
  cases change with
  | registers frame => exact (h.frame frame).update
  | enable b | cpuEnable cpu b | mask cpu value _ =>
    exact InRange.update ⟨h.pending, h.running, h.links, h.idle⟩
  | complete cpu irq ht =>
    obtain ⟨_, rfl⟩ | ⟨_, u, frame, ⟨_, rfl⟩ | ⟨_, found, _, rfl | ⟨rfl, rfl⟩⟩⟩ :=
      gicCompleteIrq_cases ht
    · exact h
    · exact ((h.frame frame).setRunning cpu (h.links cpu irq)).update
    · exact ((h.frame frame).unlink cpu irq found).update
    · exact h.unlink cpu irq found

theorem Changes.inRange (changes : Changes s t) : InRange t := by
  induction changes with
  | same => exact h
  | one change => exact change.inRange h
  | more _ frame ih => exact (ih.frame frame).update

theorem gicAcknowledgeIrq_inRange (cpu : Nat) : InRange (gicAcknowledgeIrq s cpu).2 := by
  obtain ⟨_, e⟩ | ⟨_, u, frame, e⟩ := gicAcknowledgeIrq_cases s cpu <;> rw [e]
  · exact h
  · have pushed := h.setLastActive (s.currentPending cpu) cpu (h.running cpu)
    exact ((pushed.frame frame).setRunning cpu (h.pending cpu)).update

theorem gicStep_inRange {e : Event c} (ht : gicStep s e = .ok t) : InRange t := by
  obtain changes | ⟨cpu, _, rfl⟩ := gicStep_changes ht
  · exact changes.inRange h
  · exact gicAcknowledgeIrq_inRange h cpu

end

end

end QemuStm32.Gic
