import QemuStm32.Fault

/-!
# 128-bit integers

`int128.h` makes the integers of the memory API of an unsigned and a signed half. Where the sum
of the signed halves does not overflow, `int128_add` is exact (`toInt_add`), and so is
everything else that is built on it, below `2 ^ 126`.
-/

namespace QemuStm32

structure Int128 where
  lo : BitVec 64
  /-- An `int64_t`. -/
  hi : BitVec 64
  deriving DecidableEq, Repr

namespace Int128

def make64 (a : BitVec 64) : Int128 := ⟨a, 0⟩

def get64 (a : Int128) : Except Fault (BitVec 64) :=
  if a.hi = 0 then .ok a.lo else .error (.assertFailed "!a.hi")

def one : Int128 := make64 1

def add (a b : Int128) : Int128 :=
  let lo := a.lo + b.lo
  ⟨lo, a.hi + b.hi + if lo < a.lo ∨ lo < b.lo then 1 else 0⟩

def neg (a : Int128) : Int128 := add ⟨~~~a.lo, ~~~a.hi⟩ one

def sub (a b : Int128) : Int128 := add a (neg b)

def nonneg (a : Int128) : Bool := a.hi.toInt ≥ 0

def eq (a b : Int128) : Bool := a.lo == b.lo && a.hi == b.hi

def ne (a b : Int128) : Bool := !eq a b

def ge (a b : Int128) : Bool := nonneg (sub a b)

def lt (a b : Int128) : Bool := !ge a b

def le (a b : Int128) : Bool := ge b a

def gt (a b : Int128) : Bool := !le a b

def nz (a : Int128) : Bool := a.lo != 0 || a.hi != 0

protected def min (a b : Int128) : Int128 := if le a b then a else b

protected def max (a b : Int128) : Int128 := if ge a b then a else b

/-- What `*a` becomes. -/
def addto (a b : Int128) : Int128 := add a b

/-- What `*a` becomes. -/
def subfrom (a b : Int128) : Int128 := sub a b

/-- The integer that is represented. -/
def toInt (a : Int128) : Int := a.hi.toInt * 2 ^ 64 + a.lo.toNat

def Small (a : Int128) : Prop := -2 ^ 126 < a.toInt ∧ a.toInt < 2 ^ 126

variable {a b : Int128}

/-- The carry is found, and the sum of the high halves is the one of the integers. -/
theorem toInt_add (low : -2 ^ 63 ≤ a.hi.toInt + b.hi.toInt)
    (high : a.hi.toInt + b.hi.toInt < 2 ^ 63 - 1) : (a.add b).toInt = a.toInt + b.toInt := by
  have la := a.lo.isLt
  have lb := b.lo.isLt
  have carry : a.lo + b.lo < a.lo ∨ a.lo + b.lo < b.lo ↔ 2 ^ 64 ≤ a.lo.toNat + b.lo.toNat := by
    simp only [BitVec.lt_def, BitVec.toNat_add]
    omega
  unfold add toInt
  simp only [carry, BitVec.toInt_add, BitVec.toNat_add, Int.bmod_add_bmod]
  split
  · rw [show (1 : BitVec 64).toInt = 1 from rfl, Int.bmod_eq_of_le (by omega) (by omega)]
    omega
  · rw [show (0 : BitVec 64).toInt = 0 from rfl, Int.bmod_eq_of_le (by omega) (by omega)]
    omega

theorem Small.hi (h : a.Small) : -2 ^ 62 ≤ a.hi.toInt ∧ a.hi.toInt < 2 ^ 62 := by
  have := a.lo.isLt
  unfold Small toInt at h
  omega

theorem toInt_neg (h : a.Small) : a.neg.toInt = -a.toInt := by
  have hi := h.hi
  have flipped : (~~~a.hi).toInt = -a.hi.toInt - 1 := by
    have := a.hi.isLt
    rw [BitVec.toInt_eq_toNat_cond, BitVec.toInt_eq_toNat_cond, BitVec.toNat_not]
    omega
  have zero : one.hi.toInt = 0 := rfl
  have one : one.toInt = 1 := rfl
  have := a.lo.isLt
  unfold neg
  rw [toInt_add (by dsimp only; omega) (by dsimp only; omega), one]
  unfold toInt
  rw [flipped, BitVec.toNat_not]
  omega

theorem toInt_sub (ha : a.Small) (hb : b.Small) : (a.sub b).toInt = a.toInt - b.toInt := by
  have neg := toInt_neg hb
  have small : b.neg.Small := by
    unfold Small at hb ⊢
    omega
  have := ha.hi
  have := small.hi
  unfold sub
  rw [toInt_add (by omega) (by omega), neg]
  omega

theorem nonneg_iff (a : Int128) : a.nonneg = true ↔ 0 ≤ a.toInt := by
  have := a.lo.isLt
  unfold nonneg toInt
  rw [decide_eq_true_eq]
  omega

theorem ge_iff (ha : a.Small) (hb : b.Small) : a.ge b = true ↔ b.toInt ≤ a.toInt := by
  unfold ge
  rw [nonneg_iff, toInt_sub ha hb]
  omega

theorem eq_iff : a.eq b = true ↔ a.toInt = b.toInt := by
  have := a.lo.isLt
  have := b.lo.isLt
  unfold eq toInt
  rw [Bool.and_eq_true, beq_iff_eq, beq_iff_eq, ← BitVec.toNat_inj, ← BitVec.toInt_inj]
  omega

/-- The functions compute and compare the integers that their arguments represent. -/
theorem int128_exact (a b : Int128) (ha : a.Small) (hb : b.Small) :
    (a.add b).toInt = a.toInt + b.toInt ∧ a.neg.toInt = -a.toInt ∧
    (a.sub b).toInt = a.toInt - b.toInt ∧
    (a.addto b).toInt = a.toInt + b.toInt ∧ (a.subfrom b).toInt = a.toInt - b.toInt ∧
    (a.nonneg = true ↔ 0 ≤ a.toInt) ∧ (a.nz = true ↔ a.toInt ≠ 0) ∧
    (a.eq b = true ↔ a.toInt = b.toInt) ∧ (a.ne b = true ↔ a.toInt ≠ b.toInt) ∧
    (a.ge b = true ↔ b.toInt ≤ a.toInt) ∧ (a.lt b = true ↔ a.toInt < b.toInt) ∧
    (a.le b = true ↔ a.toInt ≤ b.toInt) ∧ (a.gt b = true ↔ b.toInt < a.toInt) ∧
    (a.min b).toInt = min a.toInt b.toInt ∧ (a.max b).toInt = max a.toInt b.toInt ∧
    (∀ x, (make64 x).toInt = x.toNat ∧ (make64 x).get64 = .ok x) ∧
    ∀ x, a.get64 = .ok x → make64 x = a := by
  have hia := ha.hi
  have hib := hb.hi
  have sum : (a.add b).toInt = a.toInt + b.toInt := toInt_add (by omega) (by omega)
  have ge := ge_iff ha hb
  have le : a.le b = true ↔ a.toInt ≤ b.toInt := ge_iff hb ha
  refine ⟨sum, toInt_neg ha, toInt_sub ha hb, sum, toInt_sub ha hb, nonneg_iff a, ?_, eq_iff, ?_,
    ge, ?_, le, ?_, ?_, ?_, fun x => ⟨?_, rfl⟩, fun x got => ?_⟩
  · have zero : a.eq (make64 0) = true ↔ a.toInt = 0 := eq_iff
    rw [Ne, ← zero]
    simp [nz, eq, make64, imp_iff_not_or]
  · rw [Int128.ne, Bool.not_eq_true', ← Bool.not_eq_true, eq_iff]
  · rw [Int128.lt, Bool.not_eq_true', ← Bool.not_eq_true, ge]
    omega
  · rw [Int128.gt, Bool.not_eq_true', ← Bool.not_eq_true, le]
    omega
  · simp only [Int128.min, apply_ite toInt, le, Int.min_def]
  · simp only [Int128.max, apply_ite toInt, ge]
    split <;> omega
  · simp [make64, toInt]
  · unfold get64 at got
    split at got
    · next zero =>
      cases got
      exact congrArg (Int128.mk a.lo) zero.symm
    · cases got

theorem int128_exact_carry : (make64 (-1)).Small ∧ ((make64 (-1)).add one).toInt = 2 ^ 64 := by
  have small : (make64 (-1)).Small ∧ one.Small := by
    unfold Small
    decide
  exact ⟨small.1, (int128_exact _ _ small.1 small.2).1⟩

end Int128

end QemuStm32
