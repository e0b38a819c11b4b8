import QemuStm32.Lib.Linked

/-!
# Rings threaded through two arrays

A ring is kept as a successor and a predecessor function. `Ring next prev r l`
says that following `next` from `r` visits the elements of `l` in order and
comes back to `r`, and that `prev` undoes `next` on the way.
-/

namespace QemuStm32.Rings

open Linked
open List (mem_cons mem_cons_of_mem mem_cons_self nodup_cons)
open Function (update update_of_ne update_self)

variable {α : Type*}

structure Ring (next prev : α → α) (r : α) (l : List α) : Prop where
  forward : Chain next r (next r) l
  back : ∀ a ∈ r :: l, prev (next a) = a

namespace Ring
variable {next prev next' prev' : α → α} {r x : α} {l : List α}

theorem nodup (h : Ring next prev r l) : (r :: l).Nodup :=
  nodup_cons.mpr ⟨h.forward.stop_notMem, h.forward.nodup⟩

theorem congr (h : Ring next prev r l) (sameNext : ∀ a ∈ r :: l, next' a = next a)
    (samePrev : ∀ a ∈ r :: l, prev' (next a) = prev (next a)) : Ring next' prev' r l := by
  constructor
  · rw [sameNext r mem_cons_self]
    exact h.forward.congr fun i hi => sameNext i (.tail _ hi)
  · intro a ha
    rw [sameNext a ha, samePrev a ha, h.back a ha]

variable {a b : α}

section
variable (h : Ring next prev r l) (ha : a ∈ r :: l)
include h ha

theorem next_injective (hb : b ∈ r :: l) (same : next a = next b) : a = b := by
  rw [← h.back a ha, ← h.back b hb, same]

/-- The successor of a member is a member. -/
theorem next_mem : next a ∈ r :: l := by
  obtain rfl | ha := mem_cons.mp ha
  · have forward := h.forward
    generalize next a = b at forward
    cases forward with
    | nil => exact mem_cons_self
    | cons _ _ => exact .tail _ mem_cons_self
  · obtain stop | mem := h.forward.next_mem ha
    · rw [stop]
      exact mem_cons_self
    · exact .tail _ mem

/-- Every member is the successor of its predecessor. -/
theorem next_prev : prev a ∈ r :: l ∧ next (prev a) = a := by
  have pred : ∃ u ∈ r :: l, next u = a := by
    obtain rfl | ha := mem_cons.mp ha
    · by_cases alone : l = []
      · subst alone
        have forward := h.forward
        generalize hb : next a = b at forward
        cases forward
        exact ⟨a, mem_cons_self, hb⟩
      · obtain ⟨u, hu, link⟩ := h.forward.last alone
        exact ⟨u, .tail _ hu, link⟩
    · obtain rfl | ⟨u, hu, link⟩ := h.forward.pred ha
      · exact ⟨r, mem_cons_self, rfl⟩
      · exact ⟨u, .tail _ hu, link⟩
  obtain ⟨u, hu, rfl⟩ := pred
  rw [h.back u hu]
  exact ⟨hu, rfl⟩

end

theorem next_head_ne (h : Ring next prev r l) (some : l ≠ []) : next r ≠ r := by
  intro loop
  have forward := h.forward
  rw [loop] at forward
  cases forward with
  | nil => exact some rfl
  | cons ne _ => exact ne rfl

theorem next_head_eq (h : Ring next prev r []) : next r = r := by
  have forward := h.forward
  generalize next r = b at forward
  cases forward
  rfl

theorem next_head (h : Ring next prev r (b :: l)) : next r = b := by
  have forward := h.forward
  generalize next r = a at forward
  cases forward
  rfl

section
variable [DecidableEq α]

/-- A ring of one element. -/
theorem single (r : α) : Ring (update next r r) (update prev r r) r [] := by
  constructor
  · rw [update_self]
    exact .nil
  · intro a ha
    obtain rfl := List.mem_singleton.mp ha
    rw [update_self, update_self]

/-- A new element right after the head. -/
theorem insert (h : Ring next prev r l) (fresh : x ∉ r :: l) :
    Ring (update (update next x (next r)) r x)
      (update (update prev x r) (next r) x) r (x :: l) := by
  have apart : x ≠ r := fun e => fresh (e ▸ mem_cons_self)
  have notNext : ∀ a ∈ r :: l, x ≠ next a := fun a ha e => fresh (e ▸ h.next_mem ha)
  constructor
  · rw [update_self]
    apply Chain.cons apart
    rw [update_of_ne apart, update_self]
    apply h.forward.congr
    intro i hi
    have hr : i ≠ r := fun e => h.forward.stop_notMem (e ▸ hi)
    have hx : i ≠ x := fun e => fresh (e ▸ .tail _ hi)
    rw [update_of_ne hr, update_of_ne hx]
  · intro a ha
    by_cases har : a = r
    · subst har
      rw [update_self, update_of_ne (notNext a mem_cons_self), update_self]
    rw [update_of_ne har]
    by_cases hax : a = x
    · subst hax
      rw [update_self, update_self]
    have mem : a ∈ l := by
      have := (mem_cons.mp ha).resolve_left har
      exact (mem_cons.mp this).resolve_left hax
    have member : a ∈ r :: l := .tail _ mem
    have other : next a ≠ next r := fun e => har (h.next_injective member mem_cons_self e)
    rw [update_of_ne hax, update_of_ne other,
      update_of_ne (Ne.symm (notNext a member)), h.back a member]

/-- The ring without the member `x`. -/
theorem unlink (h : Ring next prev r l) (hx : x ∈ l) :
    Ring (update next (prev x) (next x)) (update prev (next x) (prev x)) r
      (l.erase x) := by
  have member : x ∈ r :: l := .tail _ hx
  have notHead : x ≠ r := fun e => h.forward.stop_notMem (e ▸ hx)
  obtain ⟨pred, link⟩ := h.next_prev member
  constructor
  · by_cases first : prev x = r
    · -- the head points at `x`, which is the first element then
      rw [first] at link
      rw [first, update_self]
      have forward := h.forward
      rw [link] at forward
      obtain ⟨q, rfl, rest⟩ := forward.tail notHead
      rw [List.erase_cons_head]
      apply rest.congr
      intro i hi
      have : i ≠ r := fun e => h.forward.stop_notMem (e ▸ .tail _ hi)
      exact update_of_ne this _ _
    · rw [update_of_ne (Ne.symm first)]
      have inner : prev x ∈ l := (mem_cons.mp pred).resolve_left first
      have := h.forward.unlink inner (by rw [link]; exact notHead)
      rwa [link] at this
  · intro a ha
    have old : a ∈ r :: l := by
      obtain rfl | ha := mem_cons.mp ha
      · exact mem_cons_self
      · exact .tail _ (List.mem_of_mem_erase ha)
    have other : a ≠ x := by
      rintro rfl
      obtain rfl | ha := mem_cons.mp ha
      · exact notHead rfl
      · exact (h.forward.nodup.mem_erase_iff.mp ha).1 rfl
    by_cases hp : a = prev x
    · subst hp
      rw [update_self, update_self]
    · have differ : next a ≠ next x := fun e => other (h.next_injective old member e)
      rw [update_of_ne hp, update_of_ne differ, h.back a old]

/-- The ring without its head: the first element becomes the head. -/
theorem unlink_head (h : Ring next prev r (b :: l)) :
    Ring (update next (prev r) (next r)) (update prev (next r) (prev r)) b l := by
  obtain ⟨q, same, rest⟩ := h.forward.tail (fun e => by
    have forward := h.forward
    rw [e] at forward
    cases forward with
    | cons ne _ => exact ne rfl)
  obtain ⟨first, rfl⟩ := List.cons.inj same
  obtain ⟨pred, link⟩ := h.next_prev mem_cons_self
  have dup := h.nodup
  have headFresh : r ∉ b :: l := (nodup_cons.mp dup).1
  have baseFresh : b ∉ l := (nodup_cons.mp (nodup_cons.mp dup).2).1
  have last : prev r ∈ b :: l := by
    apply (mem_cons.mp pred).resolve_left
    intro e
    rw [e] at link
    exact headFresh (link ▸ first ▸ mem_cons_self)
  rw [← first] at rest ⊢
  constructor
  · by_cases alone : prev r = b
    · rw [alone, update_self]
      rw [alone] at link
      rw [link] at rest
      cases rest with
      | nil => exact .nil
      | cons ne _ => exact absurd rfl ne
    · rw [update_of_ne (Ne.symm alone)]
      exact rest.retarget ((mem_cons.mp last).resolve_left alone) link baseFresh
  · intro a ha
    have old : a ∈ r :: b :: l := .tail _ ha
    by_cases hp : a = prev r
    · subst hp
      rw [update_self, update_self]
    · have differ : next a ≠ b := by
        intro e
        have : a = r := h.next_injective old mem_cons_self (e.trans first)
        exact headFresh (this ▸ ha)
      rw [update_of_ne hp, update_of_ne differ, h.back a old]

end

end Ring

end QemuStm32.Rings
