import Mathlib

/-!
# Products of 64-bit words

`mulu64` and `muls64` of `host-utils.c` for hosts without a 128-bit product: four products of
halves, added with a carry into the high word.
-/

namespace QemuStm32.HostUtils

/-- The words at `plow` and `phigh`. -/
structure Words128 where
  low : BitVec 64
  high : BitVec 64
  deriving DecidableEq, Repr

def add128 (p : Words128) (a b : BitVec 64) : Words128 :=
  let low := p.low + a
  let high := if low < a then p.high + 1#64 else p.high
  ⟨low, high + b⟩

def neg128 (p : Words128) : Words128 :=
  add128 ⟨~~~p.low, ~~~p.high⟩ 1#64 0#64

def mul64 (a b : BitVec 64) : Words128 :=
  let a0 := a.setWidth 32
  let a1 := (a >>> 32).setWidth 32
  let b0 := b.setWidth 32
  let b1 := (b >>> 32).setWidth 32
  let p : Words128 := ⟨a0.setWidth 64 * b0.setWidth 64, 0#64⟩
  let v := a0.setWidth 64 * b1.setWidth 64
  let p := add128 p (v <<< 32) (v >>> 32)
  let v := a1.setWidth 64 * b0.setWidth 64
  let p := add128 p (v <<< 32) (v >>> 32)
  let v := a1.setWidth 64 * b1.setWidth 64
  { p with high := p.high + v }

def mulu64 (a b : BitVec 64) : Words128 := mul64 a b

/-- The most negative word is its own negation. -/
def muls64 (a b : BitVec 64) : Words128 :=
  let sa := a.slt 0#64
  let a := if sa then -a else a
  let sb := b.slt 0#64
  let b := if sb then -b else b
  let p := mul64 a b
  if sa ^^ sb then neg128 p else p

/-! ## Values -/

def Words128.toNat (p : Words128) : Nat := p.low.toNat + 2 ^ 64 * p.high.toNat

def Words128.toInt (p : Words128) : Int := p.low.toNat + 2 ^ 64 * p.high.toInt

theorem add128_toNat (p : Words128) (a b : BitVec 64) :
    (add128 p a b).toNat = (p.toNat + a.toNat + 2 ^ 64 * b.toNat) % 2 ^ 128 := by
  unfold add128 Words128.toNat
  dsimp only
  have carry : p.low + a < a ↔ 2 ^ 64 ≤ p.low.toNat + a.toNat := by
    rw [BitVec.lt_def, BitVec.toNat_add]
    omega
  split
  · rename_i wraps
    have := carry.mp wraps
    rw [BitVec.toNat_add, BitVec.toNat_add, BitVec.toNat_add, BitVec.toNat_ofNat]
    omega
  · rename_i fits
    have := mt carry.mpr fits
    rw [BitVec.toNat_add, BitVec.toNat_add]
    omega

theorem neg128_toNat (p : Words128) : (neg128 p).toNat = (2 ^ 128 - p.toNat) % 2 ^ 128 := by
  rw [neg128, add128_toNat]
  unfold Words128.toNat
  rw [BitVec.toNat_not, BitVec.toNat_not, BitVec.toNat_ofNat, BitVec.toNat_ofNat]
  omega

/-- A partial product is added at bit 32. -/
theorem add128_shifted (p : Words128) (v : BitVec 64) :
    (add128 p (v <<< 32) (v >>> 32)).toNat = (p.toNat + 2 ^ 32 * v.toNat) % 2 ^ 128 := by
  rw [add128_toNat, BitVec.toNat_shiftLeft, BitVec.toNat_ushiftRight, Nat.shiftLeft_eq,
    Nat.shiftRight_eq_div_pow]
  omega

theorem toNat_mul_halves (x y : BitVec 32) :
    (x.setWidth 64 * y.setWidth 64).toNat = x.toNat * y.toNat := by
  have lt : x.toNat * y.toNat < 2 ^ 32 * 2 ^ 32 := Nat.mul_lt_mul'' x.isLt y.isLt
  rw [BitVec.toNat_mul, BitVec.toNat_setWidth_of_le (by decide),
    BitVec.toNat_setWidth_of_le (by decide)]
  exact Nat.mod_eq_of_lt lt

/-- A word is put together from its halves. -/
theorem halves (a : BitVec 64) :
    a.toNat = (a.setWidth 32).toNat + 2 ^ 32 * ((a >>> 32).setWidth 32).toNat := by
  rw [BitVec.toNat_setWidth, BitVec.toNat_setWidth, BitVec.toNat_ushiftRight,
    Nat.shiftRight_eq_div_pow]
  omega

theorem mul64_toNat (a b : BitVec 64) : (mul64 a b).toNat = a.toNat * b.toNat := by
  have lt : a.toNat * b.toNat < 2 ^ 64 * 2 ^ 64 := Nat.mul_lt_mul'' a.isLt b.isLt
  rw [halves a, halves b] at lt ⊢
  unfold mul64
  generalize a.setWidth 32 = a0, (a >>> 32).setWidth 32 = a1, b.setWidth 32 = b0,
    (b >>> 32).setWidth 32 = b1 at *
  have last (p : Words128) (v : BitVec 64) :
      { p with high := p.high + v }.toNat = (p.toNat + 2 ^ 64 * v.toNat) % 2 ^ 128 := by
    unfold Words128.toNat
    dsimp only
    rw [BitVec.toNat_add]
    omega
  have first (v : BitVec 64) : (⟨v, 0#64⟩ : Words128).toNat = v.toNat := Nat.add_zero _
  rw [last, add128_shifted, add128_shifted, first]
  simp only [toNat_mul_halves]
  rw [← Nat.mod_eq_of_lt lt]
  have : (a0.toNat + 2 ^ 32 * a1.toNat) * (b0.toNat + 2 ^ 32 * b1.toNat) =
      a0.toNat * b0.toNat + 2 ^ 32 * (a0.toNat * b1.toNat) + 2 ^ 32 * (a1.toNat * b0.toNat) +
        2 ^ 64 * (a1.toNat * b1.toNat) := by ring
  rw [this]
  omega

/-- The words hold an integer that fits in them. -/
theorem toInt_of_toNat {p : Words128} {z : Int} (value : (p.toNat : Int) = z % 2 ^ 128)
    (low : -2 ^ 127 ≤ z) (high : z < 2 ^ 127) : p.toInt = z := by
  have sign := BitVec.toInt_eq_toNat_cond p.high
  unfold Words128.toNat at value
  unfold Words128.toInt
  split at sign <;> omega

theorem mul64_toInt {m n : BitVec 64} (hm : m.toNat ≤ 2 ^ 63) (hn : n.toNat ≤ 2 ^ 63) :
    (mul64 m n).toInt = (m.toNat : Int) * n.toNat ∧
      (neg128 (mul64 m n)).toInt = -((m.toNat : Int) * n.toNat) := by
  have bound := Nat.mul_le_mul hm hn
  have value := mul64_toNat m n
  have negated := neg128_toNat (mul64 m n)
  rw [← Int.natCast_mul, ← value]
  exact ⟨toInt_of_toNat (by omega) (by omega) (by omega),
    toInt_of_toNat (by omega) (by omega) (by omega)⟩

/-- What is multiplied is the absolute value, for the most negative word too. -/
theorem magnitude (a : BitVec 64) :
    (a.toInt = if a.slt 0#64 then -↑(-a).toNat else ↑a.toNat) ∧
      (if a.slt 0#64 then -a else a).toNat ≤ 2 ^ 63 := by
  have sign := BitVec.toInt_eq_toNat_cond a
  have negative : a.slt 0#64 = true ↔ a.toInt < 0 := by simp [BitVec.slt]
  have negated := BitVec.toNat_neg a
  split <;> split at sign <;> simp only [negative] at * <;> omega

/-- Both words of the products are exact. -/
theorem products_exact (a b : BitVec 64) :
    (mulu64 a b).toNat = a.toNat * b.toNat ∧ (muls64 a b).toInt = a.toInt * b.toInt := by
  refine ⟨mul64_toNat a b, ?_⟩
  obtain ⟨valueA, boundA⟩ := magnitude a
  obtain ⟨valueB, boundB⟩ := magnitude b
  obtain ⟨same, opposite⟩ := mul64_toInt boundA boundB
  rw [valueA, valueB]
  unfold muls64
  cases sa : a.slt 0#64 with
  | false =>
    cases sb : b.slt 0#64 with
    | false => simpa [sa, sb] using same
    | true => simpa [sa, sb] using opposite
  | true =>
    cases sb : b.slt 0#64 with
    | false => simpa [sa, sb] using opposite
    | true => simpa [sa, sb] using same

end QemuStm32.HostUtils
