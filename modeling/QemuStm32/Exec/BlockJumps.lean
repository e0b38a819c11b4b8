import QemuStm32.Exec.BlockLists

/-!
# The circular lists of jumps

* `JumpLists`: the list of each block, whatever the jumps in it stand for;
* `tbJmpRemove_spec`, `resetJumps_spec`: what the two loops of `tb_phys_invalidate` do to them;
* `leaveJumps_spec`: a block that is invalidated leaves the lists of others and empties its own.
-/

namespace QemuStm32.Tb

open Runs SlotLists Circles

abbrev JmpSlot := Slot Nat Node

/-- The list of each block that is `on` has the jumps that `P` gives to it. -/
structure JumpLists (jmp : JmpSlot → Option JmpSlot) (on : Nat → Prop) (P : Node → Nat → Prop) :
    Prop where
  lists : ∀ tb, on tb → ∃ l : List Node,
    Leads jmp (.head tb) (l.map .after) (.head tb) ∧ l.Nodup ∧ ∀ x, x ∈ l ↔ P x tb
  on : ∀ x tb, P x tb → on tb
  unique : ∀ x tb tb', P x tb → P x tb' → tb = tb'
  /-- A jump that is in no list has no next one. -/
  null : ∀ x, (∃ tb, P x tb) → jmp (.after x) ≠ none

section
variable {rounds : Nat} {s : State} {on : Nat → Prop} {P : Node → Nat → Prop}
variable {jmp : JmpSlot → Option JmpSlot} {x : Node} {tb : Nat} {l : List Node}

variable {slot : JmpSlot}

theorem head_mem_slots {t : Nat} : (.head t : JmpSlot) ∈ .head tb :: l.map .after ↔ t = tb := by
  simp

theorem after_mem_slots : (.after x : JmpSlot) ∈ .head tb :: l.map .after ↔ x ∈ l := by
  simp

theorem slots_nodup (tb : Nat) (nodup : l.Nodup) :
    ((.head tb : JmpSlot) :: l.map .after).Nodup := by
  exact List.nodup_cons.mpr ⟨by simp, nodup.map fun x y same => by cases same; rfl⟩

/-- The slots of other lists than the one of `tb`. -/
theorem JumpLists.other (h : JumpLists jmp on P) {tb' : Nat} (ne : tb' ≠ tb) {l' : List Node}
    (mem : ∀ x, x ∈ l ↔ P x tb) (mem' : ∀ x, x ∈ l' ↔ P x tb')
    (inside : slot ∈ (.head tb : JmpSlot) :: l.map .after) :
    slot ∉ (.head tb' : JmpSlot) :: l'.map .after := by
  intro inside'
  cases slot with
  | head t => exact ne ((head_mem_slots.mp inside').symm.trans (head_mem_slots.mp inside))
  | after x =>
    rw [after_mem_slots, mem] at inside
    rw [after_mem_slots, mem'] at inside'
    exact ne (h.unique x tb' tb inside' inside)

/-! ## One jump leaves its list -/

theorem tbJmpRemove_spec (h : JumpLists s.jmp on P) (null : s.jmp (.after x) = none ↔ ¬∃ tb, P x tb)
    (enough : ∀ tb, ∀ l : List Node, l.Nodup → (∀ y ∈ l, P y tb) → l.length < rounds) :
    ∃ jmp', tbJmpRemove rounds x s = .ok { s with jmp := jmp' } ∧
      JumpLists jmp' on (fun y tb => P y tb ∧ y ≠ x) ∧
      ∀ y, y ≠ x → (jmp' (.after y) = none ↔ s.jmp (.after y) = none) := by
  unfold tbJmpRemove
  cases next : s.jmp (.after x) with
  | none =>
    have same : (fun y tb => P y tb ∧ y ≠ x) = P := by
      funext y tb
      exact propext (and_iff_left_of_imp fun on same => null.mp next ⟨tb, same ▸ on⟩)
    exact ⟨s.jmp, rfl, by rwa [same], fun _ _ => Iff.rfl⟩
  | some slot =>
    obtain ⟨tb, patched⟩ : ∃ tb, P x tb := by
      by_contra free
      rw [null.mpr free] at next
      cases next
    obtain ⟨l, leads, nodup, mem⟩ := h.lists tb (h.on x tb patched)
    obtain ⟨l₁, l₂, rfl⟩ := List.append_of_mem ((mem x).mpr patched)
    rw [List.map_append] at leads
    have slots := slots_nodup tb nodup
    rw [List.map_append] at slots
    have short : (l₁.map Slot.after ++ (.after x : JmpSlot) :: l₂.map .after).length < rounds := by
      have := enough tb _ nodup fun y inside => (mem y).mp inside
      simpa only [List.length_append, List.length_cons, List.length_map] using this
    rw [leads.pointerTo_self slots short]
    have link := leads.unlink slots
    have empties := fun {slot : JmpSlot} => leads.unlink_none (s := slot)
    rw [next] at link empties
    refine ⟨_, rfl, ⟨fun tb' live => ?_, fun y tb' on' => h.on y tb' on'.1,
      fun y tb₁ tb₂ h₁ h₂ => h.unique y tb₁ tb₂ h₁.1 h₂.1, fun y patched' => ?_⟩, fun y ne => ?_⟩
    · by_cases this : tb' = tb
      · subst this
        obtain ⟨absent, nodup⟩ := List.nodup_cons.mp (List.nodup_middle.mp nodup)
        refine ⟨l₁ ++ l₂, ?_, nodup, fun y => ?_⟩
        · rw [List.map_append]
          exact link
        · rw [← mem y, List.perm_middle.mem_iff, List.mem_cons]
          exact ⟨fun inside => ⟨.inr inside, ne_of_mem_of_not_mem inside absent⟩,
            fun ⟨inside, ne⟩ => inside.resolve_left ne⟩
      · obtain ⟨l', leads', nodup', mem'⟩ := h.lists tb' live
        have apart : ∀ slot ∈ (.head tb : JmpSlot) :: (l₁ ++ x :: l₂).map .after,
            slot ∉ (.head tb') :: l'.map .after := fun slot => h.other this mem mem'
        have notX : (.after x : JmpSlot) ∉ (.head tb') :: l'.map .after :=
          apart _ (after_mem_slots.mpr (by simp))
        have notLast : (l₁.map Slot.after).getLastD (.head tb) ∉
            (.head tb') :: l'.map .after := by
          apply apart
          rw [List.map_append]
          exact List.mem_append_left _ (getLastD_mem ..)
        refine ⟨l', leads'.congr fun slot inside => ?_, nodup', fun y => ?_⟩
        · rw [Function.update_of_ne (ne_of_mem_of_not_mem inside notX),
            Function.update_of_ne (ne_of_mem_of_not_mem inside notLast)]
        · rw [mem']
          refine ⟨fun p => ⟨p, ?_⟩, And.left⟩
          rintro rfl
          exact this (h.unique y tb' tb p patched)
    · obtain ⟨tb', p, ne⟩ := patched'
      rw [Ne, empties fun same => ne (by cases same; rfl)]
      exact h.null y ⟨tb', p⟩
    · exact empties fun same => ne (by cases same; rfl)

/-! ## The loop over the jumps to a block -/

theorem emptied_cons {α β : Type} [DecidableEq α] (f : α → Option β) (x : α) (l : List α)
    [DecidablePred (· ∈ l)] [DecidablePred (· ∈ x :: l)] :
    (fun y => if y ∈ l then none else Function.update f x none y) =
      fun y => if y ∈ x :: l then none else f y := by
  funext y
  rw [Function.update_apply]
  by_cases mem : y ∈ l
  · rw [if_pos mem, if_pos (.tail _ mem)]
  · simp only [List.mem_cons, mem, or_false, if_false]

theorem resetJumps_spec {q : Option JmpSlot} (way : Reaches s.jmp q (l.map .after) (.head tb))
    (nodup : l.Nodup) (enough : l.length < rounds) :
    resetJumps rounds q s = .ok { s with
      target := fun x => if x ∈ l then none else s.target x
      jmp := fun slot => if slot ∈ l.map .after then none else s.jmp slot } := by
  induction l generalizing q s rounds with
  | nil =>
    obtain ⟨rounds, rfl⟩ := Nat.exists_eq_add_one_of_ne_zero (Nat.ne_zero_of_lt enough)
    rw [show q = some (.head tb) from way]
    rfl
  | cons x l ih =>
    obtain ⟨rounds, rfl⟩ := Nat.exists_eq_add_one_of_ne_zero (Nat.ne_zero_of_lt enough)
    obtain ⟨rfl, way⟩ := way
    rw [List.nodup_cons] at nodup
    have outside : (.after x : JmpSlot) ∉ l.map .after := by simpa using nodup.1
    rw [resetJumps, ih (way.congr fun slot mem =>
      Function.update_of_ne (ne_of_mem_of_not_mem mem outside) ..) nodup.2
      (Nat.lt_of_succ_lt_succ enough)]
    congr 2
    · exact emptied_cons s.jmp (.after x) (l.map .after)
    · exact emptied_cons s.target x l

/-- The jumps of a block leave the lists of others, and the jumps to it are reset. -/
structure LeftJumps (tb : Nat) (on : Nat → Prop) (P : Node → Nat → Prop) (s : State)
    (jmp : JmpSlot → Option JmpSlot) (target : Node → Option Nat) : Prop where
  lists : ∀ tb', on tb' → tb' ≠ tb → ∃ l : List Node,
    Leads jmp (.head tb') (l.map .after) (.head tb') ∧ l.Nodup ∧ ∀ x, x ∈ l ↔ P x tb' ∧ x.1 ≠ tb
  reset : ∀ x, x.1 ≠ tb → P x tb → target x = none
  keeps : ∀ x, x.1 ≠ tb → ¬P x tb → target x = s.target x
  null : ∀ x, x.1 ≠ tb → (jmp (.after x) = none ↔ P x tb ∨ s.jmp (.after x) = none)

theorem leaveJumps_spec (h : JumpLists s.jmp on P) (live : on tb)
    (null : ∀ n, s.jmp (.after (tb, n)) = none ↔ ¬∃ tb', P (tb, n) tb')
    (enough : ∀ tb, ∀ l : List Node, l.Nodup → (∀ y ∈ l, P y tb) → l.length < rounds) :
    ∃ jmp target, leaveJumps rounds tb s = .ok { s with jmp := jmp, target := target } ∧
      LeftJumps tb on P s jmp target := by
  obtain ⟨jmp₁, removed₁, lists₁, null₁⟩ := tbJmpRemove_spec h (null 0) enough
  obtain ⟨jmp₂, removed₂, lists₂, null₂⟩ :=
    tbJmpRemove_spec (s := { s with jmp := jmp₁ }) lists₁
      (by
        rw [null₁ (tb, 1) (by simp), null 1]
        simp)
      fun tb l nodup all => enough tb l nodup fun y mem => (all y mem).1
  have same : ∀ {x : Node} {tb'}, ((P x tb' ∧ x ≠ (tb, 0)) ∧ x ≠ (tb, 1)) ↔ P x tb' ∧ x.1 ≠ tb := by
    intro x tb'
    obtain ⟨t, n⟩ := x
    match n with
    | 0 | 1 => simp
  obtain ⟨l, leads, nodup, mem⟩ := lists₂.lists tb live
  have short := enough tb l nodup fun y inside => ((mem y).mp inside).1.1
  rw [leaveJumps, removed₁, ok_bind]
  rw [removed₂]
  refine ⟨_, _, resetJumps_spec leads.reaches nodup short, ?_, ?_, ?_, ?_⟩
  · intro tb' on' ne
    obtain ⟨l', leads', nodup', mem'⟩ := lists₂.lists tb' on'
    refine ⟨l', leads'.congr fun slot inside => if_neg fun inside' => ?_, nodup', fun x => ?_⟩
    · exact lists₂.other ne mem mem' (.tail _ inside') inside
    · rw [mem', same]
  · intro x ne patched
    exact if_pos ((mem x).mpr (same.mpr ⟨patched, ne⟩))
  · intro x ne free
    exact if_neg fun inside => free (same.mp ((mem x).mp inside)).1
  · intro x ne
    have here : (.after x : JmpSlot) ∈ l.map .after ↔ P x tb := by
      simp [mem, same, ne]
    have before : jmp₂ (.after x) = none ↔ s.jmp (.after x) = none := by
      rw [null₂ x fun e => ne (by rw [e]), null₁ x fun e => ne (by rw [e])]
    rw [← here, ← before]
    split
    · rename_i inside
      exact ⟨fun _ => .inl inside, fun _ => rfl⟩
    · rename_i outside
      exact ⟨.inr, fun either => either.resolve_left outside⟩

end

end QemuStm32.Tb
