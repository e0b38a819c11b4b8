import Mathlib

/-!
# Search for the first minimum

A loop over `0, 1, …, n - 1` that keeps the best index so far and replaces it
only by a strictly better one ends with the first index of the least value.
-/

namespace QemuStm32.FirstMin

section
variable {β : Type*} [LinearOrder β] (p : Nat → Bool) (f : Nat → β)

/-- One round: the pair is the best value and the index that has it. -/
def round (best : β × Nat) (i : Nat) : β × Nat :=
  if p i then if f i < best.1 then (f i, i) else best else best

def search (n : Nat) (start : β × Nat) : β × Nat := (List.range n).foldl (round p f) start

/-- `k` is the first of the indices below `n` that satisfy `p` and have the
least value. -/
structure IsFirstMin (n k : Nat) : Prop where
  lt : k < n
  holds : p k = true
  least : ∀ i, i < n → p i = true → f k ≤ f i
  first : ∀ i, i < n → p i = true → f i = f k → k ≤ i

variable {p f}

theorem search_succ (n : Nat) (start : β × Nat) :
    search p f (n + 1) start = round p f (search p f n start) n := by
  simp [search, List.range_succ]

/-- An index below which everything is strictly worse. -/
theorem IsFirstMin.of_below {n : Nat} (hp : p n = true)
    (below : ∀ i, i < n → p i = true → f n < f i) : IsFirstMin p f (n + 1) n := by
  refine ⟨Nat.lt_succ_self n, hp, fun i hi hpi => ?_, fun i hi hpi same => ?_⟩
  · obtain hi | rfl := Nat.lt_succ_iff_lt_or_eq.mp hi
    · exact (below i hi hpi).le
    · exact le_rfl
  · obtain hi | rfl := Nat.lt_succ_iff_lt_or_eq.mp hi
    · exact absurd same (below i hi hpi).ne'
    · exact le_rfl

theorem IsFirstMin.succ {n k : Nat} (hk : IsFirstMin p f n k) (next : p n = true → f k ≤ f n) :
    IsFirstMin p f (n + 1) k := by
  refine ⟨Nat.lt_succ_of_lt hk.lt, hk.holds, fun i hi hpi => ?_, fun i hi hpi same => ?_⟩
  · obtain hi | rfl := Nat.lt_succ_iff_lt_or_eq.mp hi
    · exact hk.least i hi hpi
    · exact next hpi
  · obtain hi | rfl := Nat.lt_succ_iff_lt_or_eq.mp hi
    · exact hk.first i hi hpi same
    · exact hk.lt.le

/-- The search keeps its start value when nothing lies below it, and otherwise
finds the first minimum. -/
theorem search_spec (n : Nat) (start : β × Nat) :
    (search p f n start = start ∧ ∀ i, i < n → p i = true → start.1 ≤ f i) ∨
    (∃ k, search p f n start = (f k, k) ∧ IsFirstMin p f n k ∧ f k < start.1) := by
  induction n with
  | zero => exact .inl ⟨rfl, fun i hi => absurd hi (Nat.not_lt_zero i)⟩
  | succ n ih =>
    rw [search_succ]
    by_cases better : p n = true ∧ f n < (search p f n start).1
    · obtain ⟨hp, hlt⟩ := better
      refine .inr ⟨n, by simp [round, hp, hlt], ?_⟩
      obtain ⟨e, above⟩ | ⟨k, e, hk, below⟩ := ih <;> rw [e] at hlt
      · exact ⟨.of_below hp fun i hi hpi => hlt.trans_le (above i hi hpi), hlt⟩
      · exact ⟨.of_below hp fun i hi hpi => hlt.trans_le (hk.least i hi hpi), hlt.trans below⟩
    · have keep : round p f (search p f n start) n = search p f n start := by
        unfold round
        split
        · rename_i hp; rw [if_neg fun hlt => better ⟨hp, hlt⟩]
        · rfl
      have next : p n = true → (search p f n start).1 ≤ f n :=
        fun hp => not_lt.mp fun hlt => better ⟨hp, hlt⟩
      rw [keep]
      obtain ⟨e, above⟩ | ⟨k, e, hk, below⟩ := ih <;> rw [e] at next
      · refine .inl ⟨e, fun i hi hpi => ?_⟩
        obtain hi | rfl := Nat.lt_succ_iff_lt_or_eq.mp hi
        · exact above i hi hpi
        · exact next hpi
      · exact .inr ⟨k, e, hk.succ next, below⟩

end

end QemuStm32.FirstMin
