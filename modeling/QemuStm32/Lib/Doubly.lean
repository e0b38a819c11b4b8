import QemuStm32.Lib.SlotLists

/-!
# Doubly linked lists with several heads

Intrusive lists in which each element knows the slot that points to it, so that
it can be taken out without a search. The links of an element serve whichever
list it is in.

* `Backed`: each element of a list knows its slot;
* `Holds`: the links hold a list for each head, and no element is in two;
* `insertHead_holds`, `remove_holds`: the two operations.
-/

namespace QemuStm32.Doubly

open Function List SlotLists

universe u v

variable {ι : Type u} {α : Type v}

/-- The elements of a list that hangs on `slot` know where the pointers to them are. -/
def Backed (prev : α → Slot ι α) : Slot ι α → List α → Prop
  | _, [] => True
  | slot, a :: l => prev a = slot ∧ Backed prev (.after a) l

variable {prev prev' : α → Slot ι α} {slot : Slot ι α} {l l₁ l₂ : List α} {a b : α}

theorem Backed.congr (h : Backed prev slot l) (same : ∀ a ∈ l, prev' a = prev a) :
    Backed prev' slot l := by
  induction l generalizing slot with
  | nil => trivial
  | cons a l ih =>
    exact ⟨(same a mem_cons_self).trans h.1, ih h.2 fun b mem => same b (.tail _ mem)⟩

theorem Backed.behind (h : Backed prev slot (l₁ ++ l₂)) :
    Backed prev (Pointers.endSlot slot l₁) l₂ := by
  induction l₁ generalizing slot with
  | nil => exact h
  | cons a l₁ ih => exact ih h.2

/-- What is backed up to an element is backed with another list from there on. -/
theorem Backed.splice (h : Backed prev slot (l₁ ++ l₂)) (same : ∀ a ∈ l₁, prev' a = prev a)
    {l₃ : List α} (tail : Backed prev' (Pointers.endSlot slot l₁) l₃) :
    Backed prev' slot (l₁ ++ l₃) := by
  induction l₁ generalizing slot with
  | nil => exact tail
  | cons a l₁ ih =>
    exact ⟨(same a mem_cons_self).trans h.1, ih h.2 (fun b mem => same b (.tail _ mem)) tail⟩

structure Links (ι : Type u) (α : Type v) where
  pointers : Pointers ι α
  prev : α → Slot ι α

namespace Links

/-- The links hold the list `chain i` at each head `i`. -/
structure Holds (q : Links ι α) (chain : ι → List α) : Prop where
  hangs : ∀ i, q.pointers.Hangs (.head i) (chain i)
  backed : ∀ i, Backed q.prev (.head i) (chain i)
  nodup : ∀ i, (chain i).Nodup
  apart : ∀ i j a, a ∈ chain i → a ∈ chain j → i = j

variable {q : Links ι α} {chain : ι → List α} {i : ι}

theorem Holds.first_mem (h : q.Holds chain) (first : q.pointers.first i = some a) : a ∈ chain i :=
  mem_of_head? ((h.hangs i).read_eq.symm.trans first)

theorem Holds.next_mem (h : q.Holds chain) (mem : a ∈ chain i)
    (next : q.pointers.next a = some b) : b ∈ chain i := by
  obtain ⟨l₁, l₂, parts⟩ := append_of_mem mem
  have hangs := h.hangs i
  rw [parts] at hangs ⊢
  have tail := mem_of_head? (hangs.next_eq.symm.trans next)
  exact mem_append_right _ (.tail _ tail)

/-- The lists of the other heads do not see what is written for one list. -/
theorem Holds.update [DecidableEq ι] (h : q.Holds chain) {q' : Links ι α} {l : List α}
    (hangs : q'.pointers.Hangs (.head i) l) (backed : Backed q'.prev (.head i) l)
    (nodup : l.Nodup) (apart : ∀ j ≠ i, ∀ b ∈ chain j, b ∉ l)
    (first : ∀ j ≠ i, q'.pointers.first j = q.pointers.first j)
    (links : ∀ j ≠ i, ∀ b ∈ chain j,
      q'.pointers.next b = q.pointers.next b ∧ q'.prev b = q.prev b) :
    q'.Holds (Function.update chain i l) := by
  have same : Function.update chain i l i = l := update_self ..
  have kept : ∀ j ≠ i, Function.update chain i l j = chain j := fun j other =>
    update_of_ne other ..
  refine ⟨fun j => ?_, fun j => ?_, fun j => ?_, fun j k b inJ inK => ?_⟩
  · by_cases other : j = i
    · rw [other, same]
      exact hangs
    · rw [kept j other]
      exact (h.hangs j).congr (first j other) fun b mem => (links j other b mem).1
  · by_cases other : j = i
    · rw [other, same]
      exact backed
    · rw [kept j other]
      exact (h.backed j).congr fun b mem => (links j other b mem).2
  · by_cases other : j = i
    · rw [other, same]
      exact nodup
    · rw [kept j other]
      exact h.nodup j
  · by_cases atJ : j = i
    · by_cases atK : k = i
      · rw [atJ, atK]
      · rw [atJ, same] at inJ
        rw [kept k atK] at inK
        exact absurd inJ (apart k atK b inK)
    · rw [kept j atJ] at inJ
      by_cases atK : k = i
      · rw [atK, same] at inK
        exact absurd inK (apart j atJ b inJ)
      · rw [kept k atK] at inK
        exact h.apart j k b inJ inK

section
variable [DecidableEq α]

/-- The slot of an element, if there is one, written. -/
def setPrev (q : Links ι α) (a : Option α) (slot : Slot ι α) : Links ι α :=
  match a with
  | some a => { q with prev := Function.update q.prev a slot }
  | none => q

@[simp] theorem setPrev_pointers (q : Links ι α) (o : Option α) (slot : Slot ι α) :
    (q.setPrev o slot).pointers = q.pointers := by
  cases o <;> rfl

theorem setPrev_prev (q : Links ι α) (o : Option α) (slot : Slot ι α) (b : α) :
    (q.setPrev o slot).prev b = if o = some b then slot else q.prev b := by
  cases o <;> simp [setPrev, update_apply, eq_comm]

end

variable [DecidableEq ι] [DecidableEq α]

section
variable (q : Links ι α)

def insertHead (i : ι) (a : α) : Links ι α :=
  let linked : Links ι α :=
    { q with pointers := { q.pointers with
        next := Function.update q.pointers.next a (q.pointers.first i) } }
  let moved := linked.setPrev (q.pointers.first i) (.after a)
  { pointers := moved.pointers.assign (some a) (.head i)
    prev := Function.update moved.prev a (.head i) }

def remove (a : α) : Links ι α :=
  let moved := q.setPrev (q.pointers.next a) (q.prev a)
  { moved with pointers := moved.pointers.assign (moved.pointers.next a) (moved.prev a) }

theorem insertHead_pointers (i : ι) (a : α) : (q.insertHead i a).pointers =
    { q.pointers with next := Function.update q.pointers.next a (q.pointers.first i) }.assign
      (some a) (.head i) := by
  simp only [insertHead, setPrev_pointers]

theorem insertHead_prev (i : ι) {a b : α} (ne : b ≠ a) :
    (q.insertHead i a).prev b = if q.pointers.first i = some b then .after a else q.prev b := by
  simp only [insertHead, update_of_ne ne, setPrev_prev]

end

theorem insertHead_holds (h : q.Holds chain) (i : ι) (fresh : ∀ j, a ∉ chain j) :
    (q.insertHead i a).Holds (Function.update chain i (a :: chain i)) := by
  have ne : ∀ j, ∀ b ∈ chain j, b ≠ a := fun j b mem e => fresh j (e ▸ mem)
  refine h.update ?_ ⟨update_self .., ?_⟩ (nodup_cons.mpr ⟨fresh i, h.nodup i⟩) ?_ ?_ ?_
  · rw [insertHead_pointers]
    have hangs : q.pointers.Hangs (.head i) ([] ++ chain i) := h.hangs i
    exact hangs.insert (h.nodup i) (fun _ _ => nofun) (fresh i) nofun
  · have first : q.pointers.first i = (chain i).head? := (h.hangs i).read_eq
    have backed := h.backed i
    have nodup := h.nodup i
    have ne := ne i
    cases rest : chain i with
    | nil => trivial
    | cons b l =>
      rw [rest] at first backed nodup ne
      refine ⟨?_, backed.2.congr fun d inside => ?_⟩
      · exact (insertHead_prev q i (ne b mem_cons_self)).trans (if_pos first)
      · rw [insertHead_prev q i (ne d (.tail _ inside)), first, if_neg]
        rintro ⟨⟩
        exact (nodup_cons.mp nodup).1 inside
  · intro j other b mem inside
    obtain rfl | inside := mem_cons.mp inside
    · exact fresh j mem
    · exact other (h.apart j i b mem inside)
  · intro j other
    rw [insertHead_pointers]
    exact update_of_ne other ..
  · intro j other b mem
    have later : q.pointers.first i ≠ some b := fun e => other (h.apart j i b mem (h.first_mem e))
    rw [insertHead_pointers, insertHead_prev q i (ne j b mem), if_neg later]
    exact ⟨update_of_ne (ne j b mem) .., rfl⟩

theorem remove_pointers (ne : q.pointers.next a ≠ some a) :
    (q.remove a).pointers = q.pointers.assign (q.pointers.next a) (q.prev a) := by
  simp only [remove, setPrev_pointers, setPrev_prev, if_neg ne]

theorem remove_prev (q : Links ι α) (a b : α) : (q.remove a).prev b =
    if q.pointers.next a = some b then q.prev a else q.prev b := by
  simp only [remove, setPrev_prev]

theorem remove_holds (h : q.Holds chain) (mem : a ∈ chain i) :
    (q.remove a).Holds (Function.update chain i ((chain i).erase a)) := by
  obtain ⟨l₁, l₂, -, parts, erased⟩ := exists_erase_eq mem
  have hangs := h.hangs i
  have backed := h.backed i
  have nodup := h.nodup i
  rw [parts] at hangs backed nodup
  have next : q.pointers.next a = l₂.head? := hangs.next_eq
  have slot : q.prev a = Pointers.endSlot (.head i) l₁ := backed.behind.1
  have points : q.pointers.read (q.prev a) = some a := slot ▸ hangs.behind.1
  obtain ⟨_, nodup₂, disjoint⟩ := nodup_append.mp nodup
  obtain ⟨notMem, nodup₃⟩ := nodup_cons.mp nodup₂
  have behind : q.pointers.next a ≠ some a := by
    rw [next]
    exact fun e => notMem (mem_of_head? e)
  -- the pointer to `a` is in no other list
  have unseen s (read : q.pointers.read s ≠ some a) :
      (q.remove a).pointers.read s = q.pointers.read s := by
    rw [remove_pointers behind, Pointers.assign_other]
    rintro rfl
    exact read points
  refine h.update ?_ ?_ ((h.nodup i).erase a) ?_ (fun j other => ?_) fun j other b member => ?_
  · rw [erased, remove_pointers behind, slot]
    exact hangs.remove nodup fun _ _ => nofun
  · rw [erased]
    refine backed.splice (fun b front => ?_) ?_
    · rw [remove_prev, next, if_neg]
      exact fun e => disjoint b front b (.tail _ (mem_of_head? e)) rfl
    cases l₂ with
    | nil => trivial
    | cons b l =>
      refine ⟨?_, backed.behind.2.2.congr fun d rear => ?_⟩
      · exact ((remove_prev q a b).trans (if_pos next)).trans slot
      · rw [remove_prev, next, if_neg]
        rintro ⟨⟩
        exact (nodup_cons.mp nodup₃).1 rear
  · exact fun j other b member part => other (h.apart j i b member (mem_of_mem_erase part))
  · exact unseen (.head j) fun e => other (h.apart j i a (h.first_mem e) mem)
  · refine ⟨unseen (.after b) fun e => other (h.apart j i a (h.next_mem member e) mem), ?_⟩
    rw [remove_prev, if_neg]
    exact fun e => other (h.apart j i b member (h.next_mem mem e))

end Links

end QemuStm32.Doubly
