import Mathlib

/-!
# Linked lists threaded through an array

A list is kept as a successor function `next` and a head; it ends where the
successor is `stop`. `Chain next stop a l` says that following `next` from `a`
visits the elements of `l` in order and then reaches `stop`.
-/

namespace QemuStm32.Linked

open Function List

section
variable {α : Type*}

inductive Chain (next : α → α) (stop : α) : α → List α → Prop
  | nil : Chain next stop stop []
  | cons {a : α} {l : List α} (ne : a ≠ stop) (rest : Chain next stop (next a) l) :
    Chain next stop a (a :: l)

namespace Chain
variable {next next' : α → α} {stop a x : α} {l l' : List α}

section
variable (h : Chain next stop a l)
include h

theorem unique (h' : Chain next stop a l') : l = l' := by
  induction h generalizing l' with
  | nil =>
    cases h' with
    | nil => rfl
    | cons ne _ => exact absurd rfl ne
  | cons ne _ ih =>
    cases h' with
    | nil => exact absurd rfl ne
    | cons _ rest' => rw [ih rest']

theorem tail (ne : a ≠ stop) : ∃ r, l = a :: r ∧ Chain next stop (next a) r := by
  cases h with
  | nil => exact absurd rfl ne
  | cons _ rest => exact ⟨_, rfl, rest⟩

/-- With its end, the list starts at its head, which may be the end. -/
theorem starts : l ++ [stop] = a :: (l ++ [stop]).tail := by
  cases h <;> rfl

theorem stop_notMem : stop ∉ l := by
  induction h with
  | nil => exact not_mem_nil
  | cons ne _ ih =>
    rw [mem_cons, not_or]
    exact ⟨ne.symm, ih⟩

/-- The part of the list from one of its elements on. -/
theorem suffix (hx : x ∈ l) : ∃ r, Chain next stop x (x :: r) ∧ x :: r <:+ l := by
  induction h with
  | nil => cases hx
  | @cons a l ne rest ih =>
    by_cases hxa : x = a
    · subst hxa
      exact ⟨l, .cons ne rest, suffix_refl _⟩
    · obtain ⟨r, hr, hs⟩ := ih ((mem_cons.mp hx).resolve_left hxa)
      exact ⟨r, hr, hs.trans (suffix_cons a l)⟩

/-- A list that ends visits nothing twice. -/
theorem nodup : l.Nodup := by
  induction h with
  | nil => exact nodup_nil
  | @cons a l ne rest ih =>
    refine nodup_cons.mpr ⟨fun mem => ?_, ih⟩
    obtain ⟨r, hr, hs⟩ := rest.suffix mem
    have same : a :: l = a :: r := (Chain.cons ne rest).unique hr
    have := hs.length_le
    rw [← same, length_cons] at this
    omega

theorem congr (same : ∀ i ∈ l, next' i = next i) : Chain next' stop a l := by
  induction h with
  | nil => exact .nil
  | @cons a l ne rest ih =>
    refine .cons ne ?_
    rw [same a mem_cons_self]
    exact ih fun i hi => same i (.tail _ hi)

theorem all {P : α → Prop} (start : a = stop ∨ P a)
    (step : ∀ i, P i → next i = stop ∨ P (next i)) : ∀ i ∈ l, P i := by
  induction h with
  | nil => exact fun i hi => absurd hi not_mem_nil
  | @cons a l ne _ ih =>
    have here : P a := start.resolve_left ne
    intro i hi
    obtain rfl | hi := mem_cons.mp hi
    · exact here
    · exact ih (step a here) i hi

theorem next_mem {b : α} (hb : b ∈ l) : next b = stop ∨ next b ∈ l := by
  induction h with
  | nil => cases hb
  | @cons a l ne rest ih =>
    obtain rfl | hb := mem_cons.mp hb
    · cases rest with
      | nil => exact .inl rfl
      | cons _ _ => exact .inr (.tail _ mem_cons_self)
    · exact (ih hb).imp_right (mem_cons_of_mem a)

theorem pred (hx : x ∈ l) : x = a ∨ ∃ u ∈ l, next u = x := by
  induction h with
  | nil => cases hx
  | @cons a l ne rest ih =>
    obtain rfl | hx := mem_cons.mp hx
    · exact .inl rfl
    · obtain rfl | ⟨u, hu, link⟩ := ih hx
      · exact .inr ⟨a, mem_cons_self, rfl⟩
      · exact .inr ⟨u, .tail _ hu, link⟩

theorem last (some : l ≠ []) : ∃ u ∈ l, next u = stop := by
  induction h with
  | nil => exact absurd rfl some
  | @cons a l ne rest ih =>
    by_cases last : l = []
    · subst last
      exact ⟨a, mem_cons_self, by cases rest; rfl⟩
    · obtain ⟨u, hu, link⟩ := ih last
      exact ⟨u, .tail _ hu, link⟩

theorem next_ne (hx : x ∈ l) : next x ≠ x := by
  intro loop
  obtain ⟨r, hr, _⟩ := h.suffix hx
  obtain ⟨q, same, rest⟩ := hr.tail (fun e => h.stop_notMem (e ▸ hx))
  rw [loop] at rest
  have := congrArg length (rest.unique hr)
  rw [← (cons.inj same).2] at this
  simp at this

end

section
variable [DecidableEq α]

theorem update_of_mem (hx : x ∉ l) (a : α) {i : α} (hi : i ∈ l) :
    Function.update next x a i = next i := by
  refine update_of_ne (fun e => hx ?_) a next
  rw [← e]
  exact hi

section
variable (h : Chain next stop a l)
include h

/-- A new element in front of the list. -/
theorem push (hx : x ≠ stop) (fresh : x ∉ l) :
    Chain (Function.update next x a) stop x (x :: l) := by
  refine .cons hx ?_
  rw [update_self]
  exact h.congr fun i hi => update_of_mem fresh a hi

/-- Putting an element in front that is already in the list makes the list
endless. -/
theorem push_endless (hx : x ∈ l) : ¬ Chain (Function.update next x a) stop x l' := by
  intro h'
  have dup := h'.nodup
  cases h' with
  | nil => exact h.stop_notMem hx
  | @cons _ r ne rest =>
    have notMem := (nodup_cons.mp dup).1
    rw [update_self] at rest
    have back : Chain next stop a r := rest.congr fun i hi => (update_of_mem notMem a hi).symm
    exact notMem (back.unique h ▸ hx)

/-- The list without the element `next x`. -/
theorem unlink (hx : x ∈ l) (some : next x ≠ stop) :
    Chain (Function.update next x (next (next x))) stop a (l.erase (next x)) := by
  induction h with
  | nil => cases hx
  | @cons a l ne rest ih =>
    have dup := (Chain.cons ne rest).nodup
    by_cases hxa : x = a
    · subst hxa
      cases rest with
      | nil => exact absurd rfl some
      | @cons _ l ne' rest' =>
        have apart : x ≠ next x := fun e => (nodup_cons.mp dup).1 (e ▸ mem_cons_self)
        rw [erase_cons_tail (by simpa using apart), erase_cons_head]
        refine .cons ne ?_
        rw [update_self]
        have notMem : x ∉ l := fun h => (nodup_cons.mp dup).1 (.tail _ h)
        exact rest'.congr fun i hi => update_of_mem notMem _ hi
    · have later := (mem_cons.mp hx).resolve_left hxa
      have apart : a ≠ next x := by
        -- the successor of an element comes after it, and `a` is the first
        rintro rfl
        obtain ⟨r, hr, hs⟩ := rest.suffix later
        cases hr with
        | cons _ rest' =>
          cases rest' with
          | nil => exact some rfl
          | cons _ _ =>
            exact (nodup_cons.mp dup).1 (hs.subset (.tail _ mem_cons_self))
      rw [erase_cons_tail (by simpa using apart)]
      refine .cons ne ?_
      rw [update_of_ne (fun e => hxa e.symm)]
      exact ih later

/-- A chain that ends in another element after its last link is moved. -/
theorem retarget {u z : α} (hu : u ∈ l) (last : next u = stop)
    (fresh : z ∉ l) : Chain (Function.update next u z) z a l := by
  induction h with
  | nil => cases hu
  | @cons a l ne rest ih =>
    rw [mem_cons, not_or] at fresh
    apply cons (Ne.symm fresh.1)
    by_cases same : a = u
    · subst same
      rw [last] at rest
      cases rest with
      | nil =>
        rw [update_self]
        exact .nil
      | cons ne' _ => exact absurd rfl ne'
    · rw [update_of_ne same]
      exact ih ((mem_cons.mp hu).resolve_left (Ne.symm same)) fresh.2

end

end

theorem length_le {next : Nat → Nat} {stop a n : Nat} {l : List Nat} (h : Chain next stop a l)
    (lt : ∀ i ∈ l, i < n) : l.length ≤ n := by
  have sub : l ⊆ range n := fun i hi => mem_range.mpr (lt i hi)
  simpa using (subperm_of_subset h.nodup sub).length_le

end Chain

/-- The elements from `a` on, `fuel` of them at most. -/
def walk [DecidableEq α] (next : α → α) (stop : α) : Nat → α → List α
  | 0, _ => []
  | fuel + 1, a => if a = stop then [] else a :: walk next stop fuel (next a)

theorem Chain.walk_eq [DecidableEq α] {next : α → α} {stop a : α} {l : List α}
    (h : Chain next stop a l) {fuel : Nat} (enough : l.length ≤ fuel) :
    walk next stop fuel a = l := by
  induction h generalizing fuel with
  | nil => cases fuel <;> simp [walk]
  | cons ne _ ih =>
    cases fuel with
    | zero => simp at enough
    | succ fuel =>
      rw [walk, if_neg ne, ih (by simpa using enough)]

end

end QemuStm32.Linked
