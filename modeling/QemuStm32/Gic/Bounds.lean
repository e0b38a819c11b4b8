import QemuStm32.Gic.ByteWrites
import QemuStm32.Gic.CheckedSteps

/-!
# Indices of the interrupt controller

Which accesses index outside an array. The recorded interrupts stay in range
along a run, so it is for an access alone to name an interrupt that does not
exist (`index_inside_iff`).
-/

namespace QemuStm32.Gic.Checked

open Runs

section
variable {c : Config}

/-- The operation stopped at an index outside a per-interrupt or per-CPU array. -/
def Outside {α : Type} (r : Except Fault α) : Prop :=
  ∃ array i, array ≠ "gic_id" ∧ r = .error (.outOfBounds array i)

/-- An access of `width` bytes at `offset` has the configuration byte that begins two
interrupts before the last. -/
def ReadsLastConfiguration (c : Config) (offset width : Nat) : Prop :=
  c.nvic = false ∧ offset ≤ 0xc00 + (c.nirq / 2 - 1) ∧ 0xc00 + (c.nirq / 2 - 1) < offset + width

section
variable (s : State c)

/-- Reads leave out the last configuration byte, software interrupts and completions name an
interrupt there is, a completion also none (1023) or anything while no interrupt runs. -/
def NamesInterrupts : Event c → Prop
  | .setIrq irq _ => irq + 32 < c.nirq
  | .setPendingPrivate _ irq => irq < c.nirq
  | .readb _ offset => ¬ ReadsLastConfiguration c offset 1
  | .readw _ offset => ¬ ReadsLastConfiguration c offset 2
  | .readl _ offset => ¬ ReadsLastConfiguration c offset 4
  | .writel _ offset value => offset = 0xf00 → (value &&& 0x3ff#32).toNat < c.nirq
  | .cpuWrite cpu offset value => offset = 0x10 → s.runningIrq cpu ≠ 1023 →
    (value &&& 0x3ff#32).toNat = 1023 ∨ (value &&& 0x3ff#32).toNat < c.nirq
  | _ => True

variable {α : Type}

theorem not_outside_ok (a : α) : ¬ Outside (.ok a) := nofun

theorem not_outside_hwError (message : String) (arguments : List Nat) :
    ¬ Outside (.error (.hwError message arguments) : Except Fault α) := nofun

theorem outside_index {array : String} (known : array ≠ "gic_id") (i : Nat) :
    Outside (.error (.outOfBounds array i) : Except Fault α) := ⟨array, i, known, rfl⟩

theorem outside_unless {p : Prop} [Decidable p] {x : Except Fault α} {array : String} {i : Nat}
    (known : array ≠ "gic_id") (inside : p → ¬ Outside x) :
    Outside (if p then x else .error (.outOfBounds array i)) ↔ ¬ p := by
  split
  · exact iff_of_false (inside ‹p›) (not_not_intro ‹p›)
  · exact iff_of_true (outside_index known i) ‹¬ p›

/-- A computation leaves an array where its first part does, or where the rest does. -/
theorem outside_bind_iff {β : Type} {x : Except Fault α} {f : α → Except Fault β} :
    Outside (x >>= f) ↔ Outside x ∨ ∃ a, x = .ok a ∧ Outside (f a) := by
  cases x with
  | error fault => simp [Outside, Bind.bind, Except.bind]
  | ok a => simp [Outside, ok_bind]

theorem inside_ite {p : Prop} [Decidable p] {a b : Except Fault α} (ha : p → ¬ Outside a)
    (hb : ¬ p → ¬ Outside b) : ¬ Outside (if p then a else b) := by
  split
  · exact ha ‹p›
  · exact hb ‹¬ p›

/-- Only the configuration registers are read past the end of an array. -/
theorem readb_inside (cpu : Nat) {offset : Nat}
    (other : c.nvic = false → ¬ (0xc00 ≤ offset ∧ offset < 0xf00)) :
    ¬ Outside (Gic.gicDistReadb s cpu offset) := by
  repeat' refine inside_ite (fun _ => ?_) (fun _ => ?_)
  all_goals try exact not_outside_hwError _ _
  all_goals try exact not_outside_ok _
  · rename_i target configuration _ _
    simp only [Bool.and_eq_true, Bool.not_eq_true', decide_eq_true_eq, not_and] at *
    have start := target configuration.1
    exact absurd configuration.2 (other configuration.1 (by omega))
  · split
    · exact not_outside_ok _
    · rintro ⟨array, i, known, h⟩
      cases h
      exact known rfl

section
variable (cpu offset : Nat)

theorem readb_outside_iff :
    Outside (Gic.gicDistReadb s cpu offset) ↔ ReadsLastConfiguration c offset 1 := by
  have words := c.nirq_words
  have some := c.nirq_ge
  have few := c.nirq_lt
  unfold ReadsLastConfiguration
  by_cases configuration : c.nvic = false ∧ 0xc00 ≤ offset ∧ offset < 0xf00
  · obtain ⟨nvic, start, stop⟩ := configuration
    obtain ⟨k, rfl⟩ := Nat.exists_eq_add_of_le start
    rw [configurationRead s cpu nvic (by omega)]
    by_cases outside : k * 2 ≥ c.nirq
    · rw [if_pos outside]
      exact ⟨fun h => absurd h (not_outside_hwError _ _), fun h => by omega⟩
    rw [if_neg outside]
    by_cases last : k * 2 + 3 ≥ c.nirq
    · rw [if_pos last]
      exact ⟨fun _ => ⟨nvic, by omega, by omega⟩, fun _ => outside_index (by decide) _⟩
    · rw [if_neg last]
      exact ⟨fun h => absurd h (not_outside_ok _), fun h => by omega⟩
  · exact ⟨fun h => absurd h (readb_inside s cpu fun nvic range => configuration ⟨nvic, range⟩),
      fun h => absurd ⟨h.1, by omega, by omega⟩ configuration⟩

/-- The bytes before the last configuration byte are readable. -/
theorem readb_before (nvic : c.nvic = false)
    (before : offset < 0xc00 + (c.nirq / 2 - 1)) (near : 0xc00 + (c.nirq / 2 - 1) < offset + 4) :
    ∃ v, Gic.gicDistReadb s cpu offset = .ok v := by
  have some := c.nirq_ge
  have few := c.nirq_lt
  obtain ⟨k, rfl⟩ : ∃ k, offset = 0xc00 + k := ⟨offset - 0xc00, by omega⟩
  rw [configurationRead s cpu nvic (by omega), if_neg (by omega), if_neg (by omega)]
  exact ⟨_, rfl⟩

theorem readsLastConfiguration_add (n m : Nat) : ReadsLastConfiguration c offset (n + m) ↔
    ReadsLastConfiguration c offset n ∨ ReadsLastConfiguration c (offset + n) m := by
  unfold ReadsLastConfiguration
  rw [← and_or_left]
  exact and_congr_right fun _ => by omega

/-- Two reads in a row. -/
theorem outside_pair {x y : Except Fault (BitVec 32)} {f : BitVec 32 → BitVec 32 → BitVec 32}
    (first : Outside y → ∃ v, x = .ok v) :
    Outside (do let lo ← x; let hi ← y; .ok (f lo hi)) ↔ Outside x ∨ Outside y := by
  simp only [outside_bind_iff, not_outside_ok, and_false, exists_false, or_false]
  refine or_congr_right ⟨fun ⟨_, _, h⟩ => h, fun h => ?_⟩
  obtain ⟨v, hv⟩ := first h
  exact ⟨v, hv, h⟩

theorem readw_outside_iff :
    Outside (Gic.gicDistReadw s cpu offset) ↔ ReadsLastConfiguration c offset 2 := by
  rw [readsLastConfiguration_add offset 1 1]
  refine (outside_pair fun second => ?_).trans
    (or_congr (readb_outside_iff s cpu offset) (readb_outside_iff s cpu _))
  obtain ⟨nvic, low, high⟩ := (readb_outside_iff s cpu _).mp second
  exact readb_before s cpu offset nvic (by omega) (by omega)

theorem readl_outside_iff :
    Outside (Gic.gicDistReadl s cpu offset) ↔ ReadsLastConfiguration c offset 4 := by
  rw [readsLastConfiguration_add offset 2 2]
  refine (outside_pair fun second => ?_).trans
    (or_congr (readw_outside_iff s cpu offset) (readw_outside_iff s cpu _))
  obtain ⟨nvic, low, high⟩ := (readw_outside_iff s cpu _).mp second
  obtain ⟨lo, readLo⟩ := readb_before s cpu offset nvic (by omega) (by omega)
  obtain ⟨hi, readHi⟩ := readb_before s cpu (offset + 1) nvic (by omega) (by omega)
  refine ⟨lo ||| (hi <<< 8), ?_⟩
  unfold Gic.gicDistReadw
  rw [readLo, ok_bind, readHi, ok_bind]

theorem writeb_inside (value : BitVec 32) : ¬ Outside (Gic.gicDistWriteb s cpu offset value) := by
  unfold Gic.gicDistWriteb
  rw [outside_bind_iff]
  rintro (h | ⟨_, _, h⟩)
  · revert h
    repeat' refine inside_ite (fun _ => ?_) (fun _ => ?_)
    all_goals try exact not_outside_hwError _ _
    all_goals exact not_outside_ok _
  · exact not_outside_ok _ h

theorem writew_inside (value : BitVec 32) : ¬ Outside (Gic.gicDistWritew s cpu offset value) := by
  unfold Gic.gicDistWritew
  rw [outside_bind_iff]
  rintro (h | ⟨_, _, h⟩) <;> exact writeb_inside _ _ _ _ h

theorem writel_outside_iff (value : BitVec 32) : Outside (Gic.gicDistWritel s cpu offset value) ↔
      ¬ (offset = 0xf00 → (value &&& 0x3ff#32).toNat < c.nirq) := by
  unfold Gic.gicDistWritel
  by_cases soft : offset = 0xf00
  · rw [if_pos soft, outside_unless (by decide) fun _ => not_outside_ok _]
    exact not_congr ⟨fun inside _ => inside, fun inside => inside soft⟩
  · rw [if_neg soft, outside_bind_iff]
    refine iff_of_false ?_ (not_not_intro fun e => absurd e soft)
    rintro (h | ⟨_, _, h⟩) <;> exact writew_inside _ _ _ _ h

end

theorem complete_outside_iff (cpu irq : Nat) : Outside (Gic.gicCompleteIrq s cpu irq) ↔
      ¬ (s.runningIrq cpu ≠ 1023 → irq = 1023 ∨ irq < c.nirq) := by
  unfold Gic.gicCompleteIrq
  by_cases idle : s.runningIrq cpu = 1023
  · rw [if_pos idle]
    exact iff_of_false (not_outside_ok _) (not_not_intro (absurd idle))
  rw [if_neg idle]
  by_cases number : irq = 1023 ∨ irq < c.nirq
  · refine iff_of_false ?_ (not_not_intro fun _ => number)
    rw [if_neg (by omega)]
    refine inside_ite (fun _ => ?_) (fun _ => not_outside_ok _)
    rw [outside_bind_iff]
    rintro (⟨array, i, _, h⟩ | ⟨_, _, h⟩)
    · cases findActive_error h
    · exact not_outside_ok _ h
  · rw [if_pos (by omega)]
    exact iff_of_true (outside_index (by decide) _) fun h => number (h idle)

theorem readStep_outside_iff {s : State c} {p : Prop} {x : Except Fault (BitVec 32)}
    (read : Outside x ↔ p) : Outside (do let _ ← x; .ok s) ↔ ¬ ¬ p := by
  simp only [outside_bind_iff, read, not_outside_ok, and_false, exists_false, or_false, not_not]

/-- An access leaves an array exactly when it names no interrupt there is. -/
theorem gicStep_outside_iff (e : Event c) : Outside (gicStep s e) ↔ ¬ NamesInterrupts s e := by
  cases e with
  | setIrq irq level =>
    refine outside_unless (by decide) fun _ => ?_
    repeat' refine inside_ite (fun _ => ?_) (fun _ => ?_)
    all_goals exact not_outside_ok _
  | setPendingPrivate cpu irq =>
    exact outside_unless (by decide) fun _ =>
      inside_ite (fun _ => not_outside_ok _) fun _ => not_outside_ok _
  | readb cpu offset => exact readStep_outside_iff (readb_outside_iff s cpu offset)
  | readw cpu offset => exact readStep_outside_iff (readw_outside_iff s cpu offset)
  | readl cpu offset => exact readStep_outside_iff (readl_outside_iff s cpu offset)
  | writeb cpu offset value =>
    exact iff_of_false (writeb_inside _ _ _ _) (not_not_intro trivial)
  | writew cpu offset value =>
    exact iff_of_false (writew_inside _ _ _ _) (not_not_intro trivial)
  | writel cpu offset value => exact writel_outside_iff s cpu offset value
  | cpuRead cpu offset =>
    refine iff_of_false ?_ (not_not_intro trivial)
    unfold gicStep Gic.gicCpuRead
    rw [outside_bind_iff]
    rintro (h | ⟨_, _, h⟩)
    · revert h
      split
      all_goals first | exact not_outside_ok _ | exact not_outside_hwError _ _
    · exact not_outside_ok _ h
  | cpuWrite cpu offset value =>
    show Outside (Gic.gicCpuWrite s cpu offset value) ↔ _
    by_cases complete : offset = 0x10
    · subst complete
      refine (complete_outside_iff s cpu _).trans (not_congr ?_)
      exact ⟨fun h _ => h, fun h => h rfl⟩
    · refine iff_of_false ?_ (not_not_intro fun e => absurd e complete)
      unfold Gic.gicCpuWrite
      split
      · exact not_outside_ok _
      · exact not_outside_ok _
      · exact not_outside_ok _
      · exact absurd rfl complete
      · exact not_outside_hwError _ _

end

theorem run_inRange (c : Config) {events : List (Event c)} {s t : State c} (start : InRange s)
    (ran : run step s events = .ok t) : InRange t := by
  induction events generalizing s with
  | nil =>
    cases ran
    exact start
  | cons e events ih =>
    obtain ⟨u, stepped, ran⟩ := run_cons_ok.mp ran
    rw [step_eq start] at stepped
    exact ih (gicStep_inRange start stepped) ran

/-- In every state a run reaches, an access indexes inside all arrays exactly when it names
interrupts there are. -/
theorem index_inside_iff (c : Config) (events : List (Event c)) (s : State c)
    (reached : run step (gicInit c) events = .ok s) (e : Event c) :
    ¬ Outside (step s e) ↔ NamesInterrupts s e := by
  rw [step_eq (run_inRange c (gicInit_inRange c) reached), gicStep_outside_iff, not_not]

theorem retaken_completion_inside :
    ∃ s, run step (gicInit realview) retake = .ok s ∧
      ¬ Outside (step s (.cpuWrite ⟨0, by decide⟩ 0x10 1)) := by
  have observed : (run step (gicInit realview) retake).toOption.map (fun t => t.runningIrq 0) =
      some 1 := by
    decide +kernel
  obtain ⟨s, ran, _⟩ := exists_of_observed observed
  exact ⟨s, ran, (index_inside_iff realview retake s ran _).mpr fun _ _ => .inr (by decide)⟩

/-- What a run stopped with. -/
def stopped (r : Except Fault (State c)) : Option Fault :=
  match r with
  | .error fault => some fault
  | .ok _ => none

/-- Software interrupt 128 of 96, the configuration byte at interrupt 94, and a completion of
interrupt 200 while interrupt 1 runs. -/
theorem index_outside :
    stopped (run step (gicInit realview) [.writel ⟨0, by decide⟩ 0xf00 0x02000080]) =
      some (.outOfBounds "irq_state" 128) ∧
    stopped (run step (gicInit realview) [.readb ⟨0, by decide⟩ 0xc2f]) =
      some (.outOfBounds "irq_state" 96) ∧
    stopped (run step (gicInit realview) (retake ++ [.cpuWrite ⟨0, by decide⟩ 0x10 200])) =
      some (.outOfBounds "irq_state" 200) := by
  decide +kernel

end

end QemuStm32.Gic.Checked
