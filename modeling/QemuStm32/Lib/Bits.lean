import Mathlib

/-!
# Single bits of a machine word

Device code tests and sets bits through masks `1 << i`. These lemmas turn such
tests and updates into statements about `getLsbD`.
-/

namespace QemuStm32.Bits

open BitVec

variable {w : Nat}

theorem and_bit_ne_zero (x : BitVec w) {i : Nat} (h : i < w) :
    x &&& (1#w <<< i) ≠ 0#w ↔ x.getLsbD i = true := by
  have hp : (1#w <<< i) = BitVec.twoPow w i := (twoPow_eq w i).symm
  rw [hp, and_twoPow]
  by_cases hx : x.getLsbD i
  · simp only [hx, ↓reduceIte, iff_true]
    intro h0
    have := congrArg (fun y : BitVec w => y.getLsbD i) h0
    simp [h] at this
  · simp [hx]

theorem or_bit (x : BitVec w) (i j : Nat) :
    (x ||| (1#w <<< i)).getLsbD j = (x.getLsbD j || (decide (j < w) && decide (j = i))) := by
  have hp : (1#w <<< i) = BitVec.twoPow w i := (twoPow_eq w i).symm
  rw [hp]
  by_cases hj : j = i
  · subst hj; simp
  · have : i ≠ j := fun e => hj e.symm
    simp [hj, this]

theorem and_not_bit (x : BitVec w) (i j : Nat) :
    (x &&& ~~~(1#w <<< i)).getLsbD j = (x.getLsbD j && !decide (j = i)) := by
  have hp : (1#w <<< i) = BitVec.twoPow w i := (twoPow_eq w i).symm
  rw [hp]
  by_cases hj : j = i
  · by_cases hw : j < w
    · simp [hw]
    · simp [getLsbD_of_ge x j (by omega)]
  · by_cases hw : j < w
    · simp [hj, hw]
    · simp [getLsbD_of_ge x j (by omega)]

end QemuStm32.Bits
