import Mathlib

/-!
# Lists edited through a pointer to a pointer

Singly linked lists whose links are kept in their elements. An operation walks from slot
to slot, where a slot is the place of a pointer: the head of a list or the link of an
element. It stops at the slot it looks for and writes there.

* `Hangs`: the elements of a list hang on the pointer at a slot, in order;
* `seek`: the walk, which ends on every list that hangs somewhere (`Hangs.seek`);
* `Hangs.remove`, `Hangs.insert`: the two changes, at the slot where the walk ended;
* `Hangs.congr`: lists that do not use the changed links stay as they are.
-/

namespace QemuStm32.SlotLists

open Function List

universe u v

inductive Slot (ι : Type u) (α : Type v)
  | head (i : ι)
  | after (a : α)
  deriving DecidableEq

/-- The heads of some lists and the links of all elements; `none` is the null pointer. -/
structure Pointers (ι : Type u) (α : Type v) where
  first : ι → Option α
  next : α → Option α

namespace Pointers

variable {ι : Type u} {α : Type v}

def read (m : Pointers ι α) : Slot ι α → Option α
  | .head i => m.first i
  | .after a => m.next a

def assign [DecidableEq ι] [DecidableEq α] (m : Pointers ι α) (value : Option α) :
    Slot ι α → Pointers ι α
  | .head i => { m with first := Function.update m.first i value }
  | .after a => { m with next := Function.update m.next a value }

/-- The elements of `l` hang on the pointer at the slot. -/
def Hangs (m : Pointers ι α) : Slot ι α → List α → Prop
  | slot, [] => m.read slot = none
  | slot, a :: l => m.read slot = some a ∧ m.Hangs (.after a) l

/-- The first slot from `slot` on that holds no pointer or one to an element that
`stop`s; `none` if there is none among the first `n` slots. -/
def seek (m : Pointers ι α) (stop : α → Bool) : Nat → Slot ι α → Option (Slot ι α)
  | 0, _ => none
  | n + 1, slot =>
    match m.read slot with
    | none => some slot
    | some a => if stop a then some slot else m.seek stop n (.after a)

/-- The slot behind the elements of `l`. -/
def endSlot : Slot ι α → List α → Slot ι α
  | slot, [] => slot
  | _, a :: l => endSlot (.after a) l

variable {m m' : Pointers ι α} {slot : Slot ι α} {l l₁ l₂ l₃ : List α} {a : α}

theorem Hangs.behind (h : m.Hangs slot (l₁ ++ l₂)) : m.Hangs (endSlot slot l₁) l₂ := by
  induction l₁ generalizing slot with
  | nil => exact h
  | cons a l₁ ih => exact ih h.2

/-- The pointer at the slot. -/
theorem Hangs.read_eq (h : m.Hangs slot l) : m.read slot = l.head? := by
  cases l with
  | nil => exact h
  | cons a l => exact h.1

/-- The link of an element. -/
theorem Hangs.next_eq (h : m.Hangs slot (l₁ ++ a :: l₂)) : m.next a = l₂.head? :=
  h.behind.2.read_eq

theorem Hangs.seek (h : m.Hangs slot l) (stop : α → Bool) {n : Nat} (enough : l.length < n) :
    m.seek stop n slot = some (endSlot slot (l.takeWhile fun a => !stop a)) := by
  induction l generalizing slot n with
  | nil =>
    cases n with
    | zero => cases enough
    | succ n =>
      rw [Pointers.seek, h]
      rfl
  | cons a l ih =>
    cases n with
    | zero => cases enough
    | succ n =>
      rw [Pointers.seek, h.1]
      dsimp only
      split
      · rename_i stops
        rw [takeWhile_cons_of_neg (by simp [stops])]
        rfl
      · rename_i goes
        rw [takeWhile_cons_of_pos (by simpa using goes), ih h.2 (Nat.lt_of_succ_lt_succ enough)]
        rfl

theorem Hangs.unique (h : m.Hangs slot l₁) (h' : m.Hangs slot l₂) : l₁ = l₂ := by
  induction l₁ generalizing slot l₂ with
  | nil =>
    cases l₂ with
    | nil => rfl
    | cons b l₂ =>
      have read := h'.1
      rw [show m.read slot = none from h] at read
      cases read
  | cons a l₁ ih =>
    cases l₂ with
    | nil =>
      have read := h.1
      rw [show m.read slot = none from h'] at read
      cases read
    | cons b l₂ =>
      obtain rfl : a = b := Option.some.inj (h.1.symm.trans h'.1)
      rw [ih h.2 h'.2]

/-- The same elements hang on another slot that holds the same pointer. -/
theorem Hangs.move (h : m.Hangs slot l) {slot' : Slot ι α} (read : m'.read slot' = m.read slot)
    (next : ∀ a ∈ l, m'.next a = m.next a) : m'.Hangs slot' l := by
  induction l generalizing slot slot' with
  | nil => exact read.trans h
  | cons a l ih =>
    exact ⟨read.trans h.1, ih h.2 (next a mem_cons_self) fun b mem => next b (.tail _ mem)⟩

theorem Hangs.congr (h : m.Hangs slot l) (read : m'.read slot = m.read slot)
    (next : ∀ a ∈ l, m'.next a = m.next a) : m'.Hangs slot l := h.move read next

/-- The slot behind a part of a list is the first slot or a link of that part. -/
theorem endSlot_eq (slot : Slot ι α) (l : List α) :
    endSlot slot l = slot ∨ ∃ a ∈ l, endSlot slot l = .after a := by
  induction l generalizing slot with
  | nil => exact .inl rfl
  | cons a l ih =>
    obtain first | ⟨b, mem, last⟩ := ih (.after a)
    · exact .inr ⟨a, mem_cons_self, first⟩
    · exact .inr ⟨b, .tail _ mem, last⟩

theorem endSlot_ne {s : Slot ι α} (first : s ≠ slot) (later : ∀ b ∈ l, s ≠ .after b) :
    s ≠ endSlot slot l := by
  obtain e | ⟨b, mem, e⟩ := endSlot_eq slot l
  · rwa [e]
  · rw [e]
    exact later b mem

theorem after_ne_endSlot (first : slot ≠ .after a) (absent : a ∉ l) : .after a ≠ endSlot slot l :=
  endSlot_ne first.symm fun _ mem e => absent (Slot.after.inj e ▸ mem)

/-- What hangs behind a part of a list is exchanged. -/
theorem Hangs.splice (h : m.Hangs slot (l₁ ++ l₂)) (nodup : l₁.Nodup)
    (outside : ∀ a ∈ l₁, slot ≠ .after a)
    (same : ∀ s, (s = slot ∨ ∃ a ∈ l₁, s = .after a) → s ≠ endSlot slot l₁ → m'.read s = m.read s)
    (tail : m'.Hangs (endSlot slot l₁) l₃) : m'.Hangs slot (l₁ ++ l₃) := by
  induction l₁ generalizing slot with
  | nil => exact tail
  | cons a l₁ ih =>
    rw [nodup_cons] at nodup
    refine ⟨?_, ih h.2 nodup.2 (fun b mem e => ?_) (fun s mem ne => ?_) tail⟩
    · rw [same slot (.inl rfl)]
      · exact h.1
      · -- the last link is not the first slot
        show slot ≠ endSlot (.after a) l₁
        exact endSlot_ne (outside a mem_cons_self) fun b mem => outside b (.tail _ mem)
    · cases e
      exact nodup.1 mem
    · refine same s (.inr ?_) ne
      obtain rfl | ⟨b, inside, rfl⟩ := mem
      · exact ⟨a, mem_cons_self, rfl⟩
      · exact ⟨b, .tail _ inside, rfl⟩

variable [DecidableEq ι] [DecidableEq α]

theorem assign_same (m : Pointers ι α) (value : Option α) (slot : Slot ι α) :
    (m.assign value slot).read slot = value := by
  cases slot with
  | head i | after a => exact update_self ..

theorem assign_other (m : Pointers ι α) (value : Option α) {slot s : Slot ι α} (ne : s ≠ slot) :
    (m.assign value slot).read s = m.read s := by
  cases slot with
  | head i =>
    cases s with
    | head j => exact update_of_ne (fun e => ne (congrArg Slot.head e)) ..
    | after b => rfl
  | after a =>
    cases s with
    | head j => rfl
    | after b => exact update_of_ne (fun e => ne (congrArg Slot.after e)) ..

/-- The element behind a slot is taken out. -/
theorem Hangs.remove (h : m.Hangs slot (l₁ ++ a :: l₂)) (nodup : (l₁ ++ a :: l₂).Nodup)
    (outside : ∀ b ∈ l₁ ++ a :: l₂, slot ≠ .after b) :
    (m.assign (m.next a) (endSlot slot l₁)).Hangs slot (l₁ ++ l₂) := by
  have behind := h.behind.2
  refine h.splice (nodup_append.mp nodup).1
    (fun b mem => outside b (mem_append_left _ mem)) (fun s _ ne => assign_other _ _ ne)
    (behind.move (assign_same ..) fun b mem => ?_)
  have mem := mem_cons_of_mem a mem
  exact assign_other _ _ (after_ne_endSlot (outside b (mem_append_right _ mem))
    fun inside => (nodup_append.mp nodup).2.2 b inside b mem rfl)

/-- A new element is put in at a slot. -/
theorem Hangs.insert (h : m.Hangs slot (l₁ ++ l₂)) (nodup : (l₁ ++ l₂).Nodup)
    (outside : ∀ b ∈ l₁ ++ l₂, slot ≠ .after b) (fresh : a ∉ l₁ ++ l₂) (apart : slot ≠ .after a) :
    ({ m with next := Function.update m.next a (m.read (endSlot slot l₁)) }.assign (some a)
      (endSlot slot l₁)).Hangs slot (l₁ ++ a :: l₂) := by
  rw [mem_append, not_or] at fresh
  refine h.splice (nodup_append.mp nodup).1
    (fun b mem => outside b (mem_append_left _ mem)) (fun s mem ne => ?_)
    ⟨assign_same .., h.behind.move ?_ fun b mem => ?_⟩
  · rw [assign_other _ _ ne]
    cases s with
    | head i => rfl
    | after b =>
      refine update_of_ne ?_ ..
      rintro rfl
      obtain first | ⟨c, inside, e⟩ := mem
      · exact apart first.symm
      · cases e
        exact fresh.1 inside
  · rw [assign_other _ _ (after_ne_endSlot apart fresh.1)]
    exact update_self ..
  · have link := assign_other { m with next := update m.next a (m.read (endSlot slot l₁)) }
      (some a) (after_ne_endSlot (outside b (mem_append_right _ mem))
        fun inside => (nodup_append.mp nodup).2.2 b inside b mem rfl)
    refine Eq.trans link (update_of_ne ?_ ..)
    rintro rfl
    exact fresh.2 mem

end Pointers

end QemuStm32.SlotLists
