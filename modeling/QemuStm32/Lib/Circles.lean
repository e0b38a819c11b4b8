import Mathlib

/-!
# Circular lists of slots

A slot is a place that holds a pointer to another slot, or none. The slots of a list point
each to the next and the last one to the first, so an element can be taken out from its own
slot alone: `pointerTo` goes around until it finds who points to it.

* `Leads`: the pointers lead from one slot through some others to a third;
* `Leads.pointerTo`: the way around a circle ends before its first slot;
* `Leads.unlink`, `Leads.push`: taking out an element, and putting one in at the front;
* `Leads.congr`: circles without the changed slots stay as they are.
-/

namespace QemuStm32.Circles

open Function List

universe u

section
variable {σ : Type u}

/-- The pointers lead from `a` through `l` to `b`. -/
def Leads (m : σ → Option σ) : σ → List σ → σ → Prop
  | a, [], b => m a = some b
  | a, c :: l, b => m a = some c ∧ Leads m c l b

variable {m m' : σ → Option σ} {a b c x y : σ} {l l₁ l₂ : List σ}

theorem leads_append : Leads m a (l₁ ++ c :: l₂) b ↔ Leads m a l₁ c ∧ Leads m c l₂ b := by
  induction l₁ generalizing a with
  | nil => rfl
  | cons d l₁ ih =>
    rw [cons_append, Leads, ih, Leads, and_assoc]

theorem Leads.congr (h : Leads m a l b) (same : ∀ s ∈ a :: l, m' s = m s) : Leads m' a l b := by
  induction l generalizing a with
  | nil => exact (same a mem_cons_self).trans h
  | cons c l ih =>
    exact ⟨(same a mem_cons_self).trans h.1, ih h.2 fun s mem => same s (.tail _ mem)⟩

/-- The way that begins with a pointer. -/
def Reaches (m : σ → Option σ) : Option σ → List σ → σ → Prop
  | q, [], b => q = some b
  | q, c :: l, b => q = some c ∧ Reaches m (m c) l b

theorem Leads.reaches (h : Leads m a l b) : Reaches m (m a) l b := by
  induction l generalizing a with
  | nil => exact h
  | cons c l ih => exact ⟨h.1, ih h.2⟩

theorem Reaches.congr {q : Option σ} (h : Reaches m q l b) (same : ∀ s ∈ l, m' s = m s) :
    Reaches m' q l b := by
  induction l generalizing q with
  | nil => exact h
  | cons c l ih =>
    refine ⟨h.1, ?_⟩
    rw [same c mem_cons_self]
    exact ih h.2 fun s mem => same s (.tail _ mem)

/-- Who points to the end of a way. -/
theorem Leads.last (h : Leads m a l b) : m (l.getLastD a) = some b := by
  induction l generalizing a with
  | nil => exact h
  | cons c l ih =>
    rw [getLastD_cons]
    exact ih h.2

theorem getLastD_mem (a : σ) (l : List σ) : l.getLastD a ∈ a :: l := by
  induction l generalizing a with
  | nil => exact mem_cons_self
  | cons c l ih =>
    rw [getLastD_cons]
    exact .tail _ (ih c)

theorem getLastD_append_cons (l₁ l₂ : List σ) (a x : σ) :
    (l₂ ++ a :: l₁).getLastD x = l₁.getLastD a := by
  induction l₂ generalizing x with
  | nil => rw [nil_append, getLastD_cons]
  | cons c l₂ ih => rw [cons_append, getLastD_cons, ih]

variable {s : σ} {n : Nat}

/-- No slot of a circle is empty. -/
theorem Leads.full (h : Leads m a l b) (mem : s ∈ a :: l) : m s ≠ none := by
  induction l generalizing a with
  | nil =>
    obtain rfl := mem_singleton.mp mem
    rw [show m s = some b from h]
    exact nofun
  | cons c l ih =>
    obtain rfl | mem := mem_cons.mp mem
    · rw [h.1]
      exact nofun
    · exact ih h.2 mem

variable [DecidableEq σ]

/-- The slot that points to `x`, among the first `n` ones from `a` on. -/
def pointerTo (m : σ → Option σ) (x : σ) : Nat → σ → Option σ
  | 0, _ => none
  | n + 1, a =>
    match m a with
    | none => none
    | some c => if c = x then some a else pointerTo m x n c

theorem Leads.pointerTo (h : Leads m a l x) (outside : x ∉ l) (enough : l.length < n) :
    pointerTo m x n a = some (l.getLastD a) := by
  induction l generalizing a n with
  | nil =>
    obtain ⟨n, rfl⟩ := Nat.exists_eq_add_one_of_ne_zero (Nat.ne_zero_of_lt enough)
    rw [Circles.pointerTo, show m a = some x from h]
    exact if_pos rfl
  | cons c l ih =>
    obtain ⟨n, rfl⟩ := Nat.exists_eq_add_one_of_ne_zero (Nat.ne_zero_of_lt enough)
    rw [mem_cons, not_or] at outside
    rw [Circles.pointerTo, h.1, getLastD_cons]
    dsimp only
    rw [if_neg (Ne.symm outside.1)]
    exact ih h.2 outside.2 (Nat.lt_of_succ_lt_succ enough)

/-- From an element the way goes around to the slot before it. -/
theorem Leads.pointerTo_self (h : Leads m a (l₁ ++ x :: l₂) a)
    (nodup : (a :: (l₁ ++ x :: l₂)).Nodup) (enough : (l₁ ++ x :: l₂).length < n) :
    Circles.pointerTo m x n x = some (l₁.getLastD a) := by
  obtain ⟨before, after⟩ := leads_append.mp h
  have around : Leads m x (l₂ ++ a :: l₁) x := leads_append.mpr ⟨after, before⟩
  rw [← cons_append, nodup_append] at nodup
  obtain ⟨-, back, apart⟩ := nodup
  have outside : x ∉ l₂ ++ a :: l₁ := by
    rw [mem_append, not_or]
    exact ⟨(nodup_cons.mp back).1, fun mem => apart x mem x mem_cons_self rfl⟩
  rw [around.pointerTo outside, getLastD_append_cons]
  simp only [length_append, length_cons] at enough ⊢
  omega

/-- The end of a way is moved. -/
theorem Leads.retarget (h : Leads m a l x) (nodup : (a :: l).Nodup) :
    Leads (Function.update m (l.getLastD a) (some y)) a l y := by
  induction l generalizing a with
  | nil => exact update_self ..
  | cons c l ih =>
    rw [nodup_cons] at nodup
    rw [getLastD_cons]
    refine ⟨?_, ih h.2 nodup.2⟩
    rw [update_of_ne]
    · exact h.1
    · intro same
      exact nodup.1 (same ▸ getLastD_mem c l)

/-- The element `x` is taken out of the circle of `a`. -/
theorem Leads.unlink (h : Leads m a (l₁ ++ x :: l₂) a) (nodup : (a :: (l₁ ++ x :: l₂)).Nodup) :
    Leads (Function.update (Function.update m (l₁.getLastD a) (m x)) x none) a (l₁ ++ l₂) a := by
  obtain ⟨before, after⟩ := leads_append.mp h
  rw [← cons_append, nodup_append] at nodup
  obtain ⟨front, back, apart⟩ := nodup
  have outside := (nodup_cons.mp back).1
  have notHere : x ∉ a :: (l₁ ++ l₂) := by
    rw [← cons_append, mem_append, not_or]
    exact ⟨fun mem => apart x mem x mem_cons_self rfl, outside⟩
  have lastFront := getLastD_mem a l₁
  refine Leads.congr ?_ fun s mem =>
    update_of_ne (ne_of_mem_of_not_mem mem notHere) ..
  cases l₂ with
  | nil =>
    rw [append_nil, show m x = some a from after]
    exact before.retarget front
  | cons c l₂ =>
    rw [after.1]
    refine leads_append.mpr ⟨before.retarget front, after.2.congr fun s mem => ?_⟩
    refine update_of_ne (fun same => ?_) ..
    exact apart s (same ▸ lastFront) s (.tail _ mem) rfl

/-- Taking out an element empties no other slot. -/
theorem Leads.unlink_none (h : Leads m a (l₁ ++ x :: l₂) a) (ne : s ≠ x) :
    Function.update (Function.update m (l₁.getLastD a) (m x)) x none s = none ↔ m s = none := by
  rw [update_of_ne ne]
  by_cases last : s = l₁.getLastD a
  · have last' := (leads_append.mp h).1.last
    have next := h.full (show x ∈ a :: (l₁ ++ x :: l₂) by simp)
    rw [last, update_self, last']
    exact ⟨fun none => absurd none next, nofun⟩
  · rw [update_of_ne last]

/-- A new element comes first. -/
theorem Leads.push (h : Leads m a l a) (fresh : x ∉ a :: l) (outside : a ∉ l) :
    Leads (Function.update (Function.update m x (m a)) a (some x)) a (x :: l) a := by
  rw [mem_cons, not_or] at fresh
  refine ⟨update_self .., ?_⟩
  have link : update (update m x (m a)) a (some x) x = m a := by
    rw [update_of_ne fresh.1, update_self]
  cases l with
  | nil => exact link.trans h
  | cons c l =>
    refine ⟨link.trans h.1, h.2.congr fun s mem => ?_⟩
    rw [update_of_ne (ne_of_mem_of_not_mem mem outside),
      update_of_ne (ne_of_mem_of_not_mem mem fresh.2)]

end

end QemuStm32.Circles
