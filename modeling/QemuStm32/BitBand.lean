import QemuStm32.Lib.Words

/-!
# The bit-band alias

`hw/armv7m.c`: each word of the alias region stands for one bit of the region below it. A byte,
half word or word access reads the bytes around that bit as an integer of the host and masks it.
-/

namespace QemuStm32.BitBand

open BitVec Nat Words

/-- The two alias regions of `armv7m_bitband_init`. -/
inductive BitBandState
  | sram
  | peripheral
  deriving DecidableEq, Repr

def BitBandState.base : BitBandState → Nat
  | .sram => 0x20000000
  | .peripheral => 0x40000000

def bitbandAddr (s : BitBandState) (addr : Nat) : Nat := s.base ||| addr % 0x2000000 / 32

/-- The integer of `n` bytes with the given bits. -/
def ofBits (n : Nat) (bits : Nat → Bool) : BitVec (8 * n) :=
  .ofNat _ (Nat.ofBits fun i : Fin (8 * n) => bits i)

section
variable (big : Bool)

/-- Which of the `n` bytes in memory is byte `k` of the host's integer. -/
def hostByte (n k : Nat) : Nat := if big then n - 1 - k else k

variable (n : Nat)

/-- `cpu_physical_memory_read` of `n` bytes into an integer of the host, and its counterpart. -/
def readInt (f : Memory) (a : Nat) : BitVec (8 * n) :=
  ofBits n fun i => (f (a + hostByte big n (i / 8))).getLsbD (i % 8)

def writeInt (f : Memory) (a : Nat) (v : BitVec (8 * n)) : Memory :=
  fun b => if a ≤ b ∧ b < a + n then v.extractLsb' (8 * hostByte big n (b - a)) 8 else f b

/-- `tswap16` and `tswap32` for a little-endian target; a byte stays as it is. -/
def tswap (v : BitVec (8 * n)) : BitVec (8 * n) :=
  ofBits n fun i => v.getLsbD (8 * hostByte big n (i / 8) + i % 8)

/-- The aligned address and the mask of an access to `n` bytes. -/
def aligned (s : BitBandState) (offset : Nat) : Nat := bitbandAddr s offset / n * n

def mask (n offset : Nat) : BitVec (8 * n) :=
  tswap big n (1#(8 * n) <<< (offset / 4 % (8 * n)))

def bitbandRead (s : BitBandState) (f : Memory) (offset : Nat) : Nat :=
  (decide (readInt big n f (aligned n s offset) &&& mask big n offset ≠ 0)).toNat

def bitbandWrite (s : BitBandState) (f : Memory) (offset : Nat) (value : BitVec 32) : Memory :=
  let v := readInt big n f (aligned n s offset)
  writeInt big n f (aligned n s offset)
    (if value.getLsbD 0 then v ||| mask big n offset else v &&& ~~~mask big n offset)

def bitbandReadb := bitbandRead big 1
def bitbandReadw := bitbandRead big 2
def bitbandReadl := bitbandRead big 4
def bitbandWriteb := bitbandWrite big 1
def bitbandWritew := bitbandWrite big 2
def bitbandWritel := bitbandWrite big 4

end

/-- The byte that an alias word stands for; the bit is the word's number modulo eight. -/
def target (s : BitBandState) (word : Nat) : Nat := s.base + word % 0x800000 / 8

section
variable {big : Bool} {n : Nat} {s : BitBandState} {f : Memory} {offset : Nat}

theorem bitbandAddr_eq (s : BitBandState) (offset : Nat) :
    bitbandAddr s offset = target s (offset / 4) := by
  have small : offset % 0x2000000 / 32 < 2 ^ 20 := by omega
  have word : offset / 4 % 0x800000 / 8 = offset % 0x2000000 / 32 := by omega
  unfold target
  rw [word]
  cases s with
  | sram => exact (two_pow_add_eq_or_of_lt small 0x200).symm
  | peripheral => exact (two_pow_add_eq_or_of_lt small 0x400).symm

/-- Where the target byte lies in the bytes that are accessed. -/
theorem target_eq (s : BitBandState) (offset : Nat) (width : n = 1 ∨ n = 2 ∨ n = 4) :
    target s (offset / 4) = aligned n s offset + offset / 4 % (8 * n) / 8 := by
  unfold aligned
  rw [bitbandAddr_eq]
  unfold target
  have base : s.base % 4 = 0 := by cases s <;> rfl
  rcases width with rfl | rfl | rfl <;> omega

variable {i k : Nat}

theorem ofBits_bit {bits : Nat → Bool} (h : i < 8 * n) : (ofBits n bits).getLsbD i = bits i := by
  rw [ofBits, getLsbD_ofNat, testBit_ofBits_lt _ _ h, decide_eq_true h, Bool.true_and]

theorem hostByte_lt (h : k < n) : hostByte big n k < n := by
  unfold hostByte
  split <;> omega

theorem hostByte_hostByte (h : k < n) : hostByte big n (hostByte big n k) = k := by
  unfold hostByte
  split <;> omega

/-- The bit `i` of memory byte `k`, in the integer that the host reads. -/
theorem readInt_bit {a : Nat} (hk : k < n) (hi : i < 8) :
    (readInt big n f a).getLsbD (8 * hostByte big n k + i) = (f (a + k)).getLsbD i := by
  have inside : hostByte big n k < n := hostByte_lt hk
  have byte : (8 * hostByte big n k + i) / 8 = hostByte big n k := by omega
  have bit : (8 * hostByte big n k + i) % 8 = i := by omega
  unfold readInt
  rw [ofBits_bit (by omega), byte, bit, hostByte_hostByte hk]

theorem twoPow_ne_zero {w : Nat} (inside : i < w) : BitVec.twoPow w i ≠ 0 := by
  intro zero
  have bit := getLsbD_twoPow (w := w) i i
  rw [zero] at bit
  simp [inside] at bit

theorem mask_eq (some : 0 < n) : mask big n offset = BitVec.twoPow (8 * n)
    (8 * hostByte big n (offset / 4 % (8 * n) / 8) + offset / 4 % (8 * n) % 8) := by
  have small := mod_lt (offset / 4) (show 0 < 8 * n by omega)
  unfold mask tswap
  generalize offset / 4 % (8 * n) = t at small
  refine eq_of_getLsbD_eq fun j hj => ?_
  have byte : hostByte big n (t / 8) < n := hostByte_lt (by omega)
  have inside : 8 * hostByte big n (t / 8) + t % 8 < 8 * n := by omega
  rw [ofBits_bit hj, ← twoPow_eq]
  simp only [getLsbD_twoPow, small, inside, decide_true, Bool.true_and, decide_eq_decide]
  unfold hostByte
  split <;> omega

theorem mask_bit (hk : k < n) (hi : i < 8) :
    (mask big n offset).getLsbD (8 * hostByte big n k + i) =
      decide (8 * k + i = offset / 4 % (8 * n)) := by
  have small := mod_lt (offset / 4) (show 0 < 8 * n by omega)
  have inside : hostByte big n (offset / 4 % (8 * n) / 8) < n := hostByte_lt (by omega)
  rw [mask_eq (by omega), getLsbD_twoPow, decide_eq_true (by omega), Bool.true_and,
    decide_eq_decide]
  unfold hostByte
  split <;> omega

section
variable (width : n = 1 ∨ n = 2 ∨ n = 4)
include width

/-- The mask has the bit of the target and no other. -/
theorem mask_iff (hk : k < n) (hi : i < 8) :
    8 * k + i = offset / 4 % (8 * n) ↔
      aligned n s offset + k = target s (offset / 4) ∧ i = offset / 4 % 8 := by
  rw [target_eq s offset width]
  rcases width with rfl | rfl | rfl <;> omega

theorem read_bit (big : Bool) (s : BitBandState) (f : Memory) (offset : Nat) :
    bitbandRead big n s f offset =
      ((f (target s (offset / 4))).getLsbD (offset / 4 % 8)).toNat := by
  have pos : 0 < 8 * n := by omega
  have small := mod_lt (offset / 4) pos
  have byte : offset / 4 % (8 * n) / 8 < n := by omega
  have bit : offset / 4 % (8 * n) % 8 = offset / 4 % 8 := mod_mul_right_mod _ 8 n
  have low : offset / 4 % 8 < 8 := mod_lt _ (by decide)
  have inside : hostByte big n (offset / 4 % (8 * n) / 8) < n := hostByte_lt byte
  unfold bitbandRead
  rw [mask_eq (by omega), and_twoPow, bit, readInt_bit byte low, ← target_eq s offset width]
  split
  · next set =>
    rw [set]
    exact congrArg Bool.toNat (decide_eq_true (twoPow_ne_zero (by omega)))
  · next clear => simp [clear]

theorem write_bit (big : Bool) (s : BitBandState) (f : Memory)
    (offset : Nat) (value : BitVec 32) (b : Nat) (hi : i < 8) :
    (bitbandWrite big n s f offset value b).getLsbD i =
      if b = target s (offset / 4) ∧ i = offset / 4 % 8 then value.getLsbD 0
      else (f b).getLsbD i := by
  unfold bitbandWrite writeInt
  split
  · next inside =>
    obtain ⟨k, rfl⟩ := Nat.exists_eq_add_of_le inside.1
    have hk : k < n := by omega
    rw [Nat.add_sub_cancel_left, getLsbD_extractLsb']
    simp only [← mask_iff width hk hi]
    split
    · rw [getLsbD_or, readInt_bit hk hi, mask_bit hk hi]
      split <;> simp_all
    · have bound : hostByte big n k < n := hostByte_lt hk
      rw [getLsbD_and, getLsbD_not, readInt_bit hk hi, mask_bit hk hi]
      split <;> simp_all
      omega
  · rw [if_neg]
    have := target_eq s offset width
    have := mod_lt (offset / 4) (show 0 < 8 * n by omega)
    omega

end

end

/-- Reads and writes of one width reach the bit `word % 8` of the byte `target s word`, for
every address in the alias word, and nothing else. -/
def Reaches (s : BitBandState) (read : BitBandState → Memory → Nat → Nat)
    (write : BitBandState → Memory → Nat → BitVec 32 → Memory) : Prop :=
  ∀ f offset, read s f offset = ((f (target s (offset / 4))).getLsbD (offset / 4 % 8)).toNat ∧
    ∀ value b, ∀ i < 8, (write s f offset value b).getLsbD i =
      if b = target s (offset / 4) ∧ i = offset / 4 % 8 then value.getLsbD 0
      else (f b).getLsbD i

theorem alias_reaches (big : Bool) (s : BitBandState) :
    Reaches s (bitbandReadb big) (bitbandWriteb big) ∧
      Reaches s (bitbandReadw big) (bitbandWritew big) ∧
      Reaches s (bitbandReadl big) (bitbandWritel big) := by
  have reaches : ∀ n, n = 1 ∨ n = 2 ∨ n = 4 →
      Reaches s (bitbandRead big n) (bitbandWrite big n) := fun n width f offset =>
    ⟨read_bit width big s f offset, fun value b i hi => write_bit width big s f offset value b hi⟩
  exact ⟨reaches 1 (by decide), reaches 2 (by decide), reaches 4 (by decide)⟩

end QemuStm32.BitBand
