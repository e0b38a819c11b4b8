import Mathlib

/-!
# Intrusive doubly linked lists

A list whose links are kept in its elements: each element has the next one and
the place of the pointer that points to it, so that it can be removed without a
search. An element that was removed keeps its links as they were.

* `Represents`: the links hold the elements of a list, in order;
* `insertHead_represents`, `remove_represents`: the two operations; a removal repeated at once
  changes nothing.
-/

namespace QemuStm32.Intrusive

open List

universe u

/-- Where a pointer to an element is kept: in the head or in another element. -/
inductive Slot (α : Type u)
  | first
  | next (a : α)
  deriving DecidableEq

/-- The links of all elements. `prev` is `none` for the null pointer. -/
structure Links (α : Type u) where
  first : Option α
  next : α → Option α
  prev : α → Option (Slot α)

namespace Links

variable {α : Type u}

def empty : Links α := ⟨none, fun _ => none, fun _ => none⟩

/-- The pointer kept at a slot. -/
def read (q : Links α) : Slot α → Option α
  | .first => q.first
  | .next a => q.next a

/-- The elements from `start` on, at most `n` of them. -/
def walk (q : Links α) : Nat → Option α → List α
  | 0, _ => []
  | _, none => []
  | n + 1, some a => a :: q.walk n (q.next a)

/-- The elements of `l` hang on the pointer at `slot`, and each one knows the
pointer that points to it. -/
def Hangs (q : Links α) : Slot α → List α → Prop
  | slot, [] => q.read slot = none
  | slot, a :: l => q.read slot = some a ∧ q.prev a = some slot ∧ q.Hangs (.next a) l

structure Represents (q : Links α) (l : List α) : Prop where
  hangs : q.Hangs .first l
  nodup : l.Nodup

variable {q q' : Links α} {slot slot' : Slot α} {l l₁ l₂ : List α} {a : α}

theorem empty_represents : (empty : Links α).Represents [] := ⟨rfl, nodup_nil⟩

variable {n : Nat}

theorem Hangs.walk (h : q.Hangs slot l) (enough : l.length ≤ n) : q.walk n (q.read slot) = l := by
  induction l generalizing slot n with
  | nil =>
    have none : q.read slot = none := h
    rw [none]
    cases n <;> rfl
  | cons a l ih =>
    obtain ⟨head, _, rest⟩ := h
    cases n with
    | zero => simp at enough
    | succ n =>
      rw [head]
      exact congrArg (a :: ·) (ih rest (by simpa using enough))

theorem Represents.walk (h : q.Represents l) (enough : l.length ≤ n) : q.walk n q.first = l :=
  h.hangs.walk enough

theorem Hangs.read_eq (h : q.Hangs slot l) : q.read slot = l.head? := by
  cases l with
  | nil => exact h
  | cons a l => exact h.1

theorem Hangs.back (h : q.Hangs slot l) : ∀ a ∈ l.head?, q.prev a = some slot := by
  cases l with
  | nil => nofun
  | cons a l =>
    rintro _ ⟨⟩
    exact h.2.1

/-- The same elements hang on another pointer, in links that agree behind it. -/
theorem Hangs.move (h : q.Hangs slot l) (top : q'.read slot' = q.read slot)
    (first : ∀ a ∈ l.head?, q'.prev a = some slot') (next : ∀ a ∈ l, q'.next a = q.next a)
    (prev : ∀ a ∈ l.tail, q'.prev a = q.prev a) : q'.Hangs slot' l := by
  induction l generalizing slot slot' with
  | nil => exact top.trans h
  | cons a l ih =>
    refine ⟨top.trans h.1, first a rfl, ih h.2.2 (next a mem_cons_self) (fun b mem => ?_)
      (fun b mem => next b (.tail _ mem)) fun b mem => ?_⟩
    · rw [prev b (mem_of_head? mem)]
      exact h.2.2.back b mem
    · exact prev b (mem_of_mem_tail mem)

theorem eq_of_read (read : ∀ s, q.read s = q'.read s) (prev : ∀ a, q.prev a = q'.prev a) :
    q = q' := by
  rw [Links.mk.injEq]
  exact ⟨read .first, funext fun a => read (.next a), funext prev⟩

variable [DecidableEq α]

section
variable (q : Links α)

/-- A pointer written at a slot. -/
def assign (slot : Slot α) (value : Option α) : Links α :=
  match slot with
  | .first => { q with first := value }
  | .next a => { q with next := Function.update q.next a value }

/-- The back link of an element, if there is an element. -/
def setPrev (a : Option α) (slot : Option (Slot α)) : Links α :=
  match a with
  | some a => { q with prev := Function.update q.prev a slot }
  | none => q

/-- `a` put in front of all others. -/
def insertHead (a : α) : Links α :=
  let q := { q with next := Function.update q.next a q.first }
  let q := q.setPrev q.first (some (.next a))
  let q := { q with first := some a }
  q.setPrev (some a) (some .first)

/-- `a` taken out by its links, or `none` where they are null. -/
def remove (a : α) : Option (Links α) :=
  let q := q.setPrev (q.next a) (q.prev a)
  (q.prev a).map fun slot => q.assign slot (q.next a)

@[simp] theorem setPrev_next (o : Option α) (s : Option (Slot α)) :
    (q.setPrev o s).next = q.next := by
  cases o <;> rfl

theorem setPrev_prev (o : Option α) (s : Option (Slot α)) (b : α) :
    (q.setPrev o s).prev b = if o = some b then s else q.prev b := by
  cases o <;> simp [setPrev, Function.update_apply, eq_comm]

/-! ## Insertion -/

theorem insertHead_next (a b : α) :
    (q.insertHead a).next b = if b = a then q.first else q.next b := by
  simp [insertHead, Function.update_apply]

theorem insertHead_prev (a b : α) : (q.insertHead a).prev b =
    if a = b then some .first else if q.first = some b then some (.next a) else q.prev b := by
  simp [insertHead, setPrev_prev]

end

theorem insertHead_represents (h : q.Represents l) (fresh : a ∉ l) :
    (q.insertHead a).Represents (a :: l) := by
  obtain ⟨hangs, nodup⟩ := h
  have first : q.first = l.head? := hangs.read_eq
  have top : (q.insertHead a).next a = q.first := by rw [insertHead_next, if_pos rfl]
  have ne : ∀ b ∈ l, b ≠ a := fun b mem e => fresh (e ▸ mem)
  refine ⟨⟨rfl, ?_, hangs.move top (fun b mem => ?_) (fun b mem => ?_) fun b mem => ?_⟩,
    nodup_cons.mpr ⟨fresh, nodup⟩⟩
  · rw [insertHead_prev, if_pos rfl]
  · rw [insertHead_prev, if_neg (ne b (mem_of_head? mem)).symm, if_pos (first.trans mem)]
  · rw [insertHead_next, if_neg (ne b mem)]
  · cases l with
    | nil => cases mem
    | cons c l =>
      have other : q.first ≠ some b := by
        rw [first]
        rintro ⟨⟩
        exact (nodup_cons.mp nodup).1 mem
      rw [insertHead_prev, if_neg (ne b (.tail _ mem)).symm, if_neg other]

/-! ## Removal -/

/-- The links after `a` was taken out, where `s` is the place of the pointer to it. -/
def unlinked (q : Links α) (a : α) (s : Slot α) : Links α :=
  (q.setPrev (q.next a) (q.prev a)).assign s (q.next a)

theorem unlinked_prev (q : Links α) (a b : α) (s : Slot α) :
    (q.unlinked a s).prev b = if q.next a = some b then q.prev a else q.prev b := by
  rw [← setPrev_prev]
  cases s <;> rfl

theorem unlinked_read (q : Links α) (a : α) (s t : Slot α) :
    (q.unlinked a s).read t = if t = s then q.next a else q.read t := by
  cases o : q.next a <;> cases s <;> cases t <;>
    simp [unlinked, assign, read, setPrev, Function.update_apply, o]

/-- The pointer to an element is the one before it, and the elements behind `a` hang on it once
`a` is taken out. -/
theorem Hangs.unlinked (h : q.Hangs slot (l₁ ++ a :: l₂)) (nodup : (l₁ ++ a :: l₂).Nodup)
    (outside : ∀ b ∈ l₁ ++ a :: l₂, .next b ≠ slot) :
    ∃ s, q.prev a = some s ∧ q.read s = some a ∧ q.next a = l₂.head? ∧
      (q.unlinked a s).Hangs slot (l₁ ++ l₂) := by
  induction l₁ generalizing slot with
  | nil =>
    obtain ⟨head, back, rest⟩ := h
    have next : q.next a = l₂.head? := rest.read_eq
    refine ⟨slot, back, head, next,
      rest.move ?_ (fun b mem => ?_) (fun b mem => ?_) fun b mem => ?_⟩
    · rw [unlinked_read, if_pos rfl]
      rfl
    · rw [unlinked_prev, if_pos (next.trans mem), back]
    · exact (unlinked_read q a slot (.next b)).trans (if_neg (outside b (.tail _ mem)))
    · cases l₂ with
      | nil => cases mem
      | cons c l =>
        rw [unlinked_prev, next, if_neg]
        rintro ⟨⟩
        exact (nodup_cons.mp nodup.of_cons).1 mem
  | cons b l₁ ih =>
    obtain ⟨head, back, rest⟩ := h
    obtain ⟨fresh, nodup⟩ := nodup_cons.mp nodup
    obtain ⟨s, prev, points, next, hangs⟩ := ih rest nodup (by rintro c mem ⟨⟩; exact fresh mem)
    refine ⟨s, prev, points, next, ?_, ?_, hangs⟩
    · rw [unlinked_read, if_neg, head]
      rintro rfl
      cases head.symm.trans points
      exact fresh (by simp)
    · rw [unlinked_prev, next, if_neg, back]
      exact fun e => fresh (by simp [mem_of_head? e])

/-- An element of the list is taken out of it, and taking it out once more at
once changes nothing. -/
theorem remove_represents (h : q.Represents l) (ha : a ∈ l) :
    ∃ q', q.remove a = some q' ∧ q'.Represents (l.erase a) ∧ q'.remove a = some q' := by
  obtain ⟨l₁, l₂, -, rfl, erased⟩ := exists_erase_eq ha
  obtain ⟨s, prev, points, next, hangs⟩ := h.hangs.unlinked h.nodup nofun
  have self : q.next a ≠ some a := by
    rw [next]
    intro e
    exact (nodup_cons.mp (nodup_append.mp h.nodup).2.1).1 (mem_of_head? e)
  have removes : ∀ p : Links α, p.next a = q.next a → p.prev a = some s →
      p.remove a = some (p.unlinked a s) := by
    intro p hn hp
    simp only [remove, unlinked, setPrev_next, setPrev_prev, hn, hp, if_neg self, Option.map_some]
  have next' : (q.unlinked a s).next a = q.next a := by
    refine (unlinked_read q a s (.next a)).trans (if_neg ?_)
    rintro rfl
    exact self points
  have prev' : (q.unlinked a s).prev a = some s := by rw [unlinked_prev, if_neg self, prev]
  refine ⟨q.unlinked a s, removes q rfl prev,
    ⟨erased ▸ hangs, h.nodup.erase a⟩, (removes _ next' prev').trans ?_⟩
  refine congrArg some (eq_of_read (fun t => ?_) fun b => ?_)
  · rw [unlinked_read, unlinked_read, next']
    split <;> rfl
  · rw [unlinked_prev, next', prev', unlinked_prev, prev]
    split <;> rfl

end Links

end QemuStm32.Intrusive
