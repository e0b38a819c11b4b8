import Mathlib

/-!
# Lists of intervals

Half-open intervals of integers, in two roles: a list in ascending order
without overlap (`Ordered`), and a pile of layers where an address belongs to
the first layer that covers it (`owner`).
-/

namespace QemuStm32.Intervals

open List

class Interval (T : Type*) where
  lo : T → Int
  hi : T → Int

open QemuStm32.Intervals.Interval

section
variable {T : Type*} [Interval T]

def covers (a : Int) (r : T) : Bool := decide (lo r ≤ a ∧ a < hi r)

variable {a : Int} {r : T} {l : List T} {i : Nat}

theorem covers_iff : covers a r = true ↔ lo r ≤ a ∧ a < hi r := by
  simp [covers]

/-! ## Ascending lists -/

/-- All intervals are non-empty, and each ends before the next ones start. -/
structure Ordered (l : List T) : Prop where
  nonempty : ∀ r ∈ l, lo r < hi r
  ascending : l.Pairwise fun r s => hi r ≤ lo s

theorem Ordered.nil : Ordered ([] : List T) := ⟨nofun, .nil⟩

theorem ordered_cons : Ordered (r :: l) ↔ lo r < hi r ∧ (∀ s ∈ l, hi r ≤ lo s) ∧ Ordered l := by
  constructor
  · rintro ⟨nonempty, ascending⟩
    obtain ⟨before, rest⟩ := pairwise_cons.mp ascending
    exact ⟨nonempty r mem_cons_self, before, fun s hs => nonempty s (.tail _ hs), rest⟩
  · rintro ⟨hr, before, nonempty, ascending⟩
    exact ⟨forall_mem_cons.mpr ⟨hr, nonempty⟩, pairwise_cons.mpr ⟨before, ascending⟩⟩

/-- In an ascending list an address is covered by one interval at most, and the
search for a cover finds it. -/
theorem Ordered.find_eq (h : Ordered l) (hr : r ∈ l) (ha : covers a r = true) :
    l.find? (covers a) = some r := by
  induction l with
  | nil => cases hr
  | cons s l ih =>
    obtain ⟨_, before, rest⟩ := ordered_cons.mp h
    cases mem_cons.mp hr with
    | inl e => rw [← e, find?_cons_of_pos ha]
    | inr hr =>
      have := before r hr
      have away : ¬ covers a s = true := by
        rw [covers_iff] at ha ⊢
        omega
      rw [find?_cons_of_neg away]
      exact ih rest hr

theorem Ordered.unique (h : Ordered l) {s : T} (hr : r ∈ l) (hs : s ∈ l) (har : covers a r = true)
    (has : covers a s = true) : r = s :=
  Option.some.inj ((h.find_eq hr har).symm.trans (h.find_eq hs has))

/-- How many intervals of the list cover an address. -/
def cover (l : List T) (a : Int) : Nat := l.countP (covers a)

theorem cover_le_of_sublist {m : List T} (h : l.Sublist m) (a : Int) : cover l a ≤ cover m a :=
  h.countP_le

theorem Ordered.cover_le_one (h : Ordered l) (a : Int) : cover l a ≤ 1 := by
  induction l with
  | nil => exact Nat.zero_le 1
  | cons r l ih =>
    obtain ⟨_, before, rest⟩ := ordered_cons.mp h
    unfold cover at *
    by_cases hr : covers a r = true
    · rw [countP_cons_of_pos hr]
      have none : l.countP (covers a) = 0 := by
        rw [countP_eq_zero]
        intro s hs
        have := before s hs
        rw [covers_iff] at hr ⊢
        omega
      omega
    · rw [countP_cons_of_neg hr]
      exact ih rest

/-! ## Layers -/

/-- The index of the first layer that covers an address. -/
def owner (l : List T) (a : Int) : Option Nat := l.findIdx? (covers a)

theorem owner_append_singleton (l : List T) (r : T) (a : Int) :
    owner (l ++ [r]) a = (owner l a).or (if covers a r then some l.length else none) := by
  unfold owner
  rw [findIdx?_append, findIdx?_singleton]
  cases h : covers a r with
  | false | true => simp

theorem owner_spec (h : owner l a = some i) :
    ∃ r, l[i]? = some r ∧ covers a r = true ∧ l.find? (covers a) = some r := by
  induction l generalizing i with
  | nil => cases h
  | cons r l ih =>
    unfold owner at h
    rw [findIdx?_cons] at h
    by_cases hr : covers a r = true
    · rw [if_pos hr] at h
      cases h
      exact ⟨r, rfl, hr, find?_cons_of_pos hr⟩
    · rw [if_neg hr] at h
      obtain ⟨j, hj, rfl⟩ := Option.map_eq_some_iff.mp h
      obtain ⟨s, hs, hc, hf⟩ := ih hj
      exact ⟨s, by simpa using hs, hc, by rw [find?_cons_of_neg hr, hf]⟩

theorem owner_lt (h : owner l a = some i) : i < l.length := by
  obtain ⟨r, hr, _⟩ := owner_spec h
  exact (List.getElem?_eq_some_iff.mp hr).1

theorem owner_eq_none (h : owner l a = none) : l.find? (covers a) = none := by
  rw [find?_eq_none]
  intro r hr
  rw [findIdx?_eq_none_iff.mp h r hr]
  decide

end

end QemuStm32.Intervals
