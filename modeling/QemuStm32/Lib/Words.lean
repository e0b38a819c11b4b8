import Mathlib


/-!
# Words in a memory of bytes

A memory maps addresses to bytes; a word is four bytes, the low one first, a half word two
and a double word eight.

* `storeWord_other`, `loadWord_storeWord_same`: what a store changes;
* `loadHalf_storeHalf_same`, `loadHalf_storeHalf_other`: the same for half words;
* `Agree`: two memories that hold the same bytes from one address to another.
-/

namespace QemuStm32.Words

/-- The byte at each address. -/
abbrev Memory := Nat → BitVec 8

def loadWord (f : Memory) (a : Nat) : BitVec 32 := f (a + 3) ++ f (a + 2) ++ f (a + 1) ++ f a

def storeWord (f : Memory) (a : Nat) (v : BitVec 32) : Memory := fun b =>
  if b = a then v.extractLsb' 0 8
  else if b = a + 1 then v.extractLsb' 8 8
  else if b = a + 2 then v.extractLsb' 16 8
  else if b = a + 3 then v.extractLsb' 24 8
  else f b

variable {a b : Nat} {f g : Memory}

theorem storeWord_other (f : Memory) (v : BitVec 32) (h : b < a ∨ a + 4 ≤ b) :
    storeWord f a v b = f b := by
  unfold storeWord
  rw [if_neg (by omega), if_neg (by omega), if_neg (by omega), if_neg (by omega)]

theorem loadWord_storeWord_same (f : Memory) (a : Nat) (v : BitVec 32) :
    loadWord (storeWord f a v) a = v := by
  have bytes : v.extractLsb' 24 8 ++ v.extractLsb' 16 8 ++ v.extractLsb' 8 8 ++
      v.extractLsb' 0 8 = v := by
    grind
  unfold loadWord storeWord
  simpa using bytes

/-- Equal words are equal bytes. -/
theorem loadWord_eq_iff : loadWord f a = loadWord g b ↔ ∀ i < 4, f (a + i) = g (b + i) := by
  constructor
  · intro same i lt
    have byte : ∀ (h : Memory) c, (loadWord h c).extractLsb' (8 * i) 8 = h (c + i) := by
      unfold loadWord
      match i, lt with
      | 0, _ => grind
      | 1, _ => grind
      | 2, _ => grind
      | 3, _ => grind
    rw [← byte f a, ← byte g b, same]
  · intro same
    have low : f a = g b := same 0 (by decide)
    unfold loadWord
    rw [same 1 (by decide), same 2 (by decide), same 3 (by decide), low]

/-- The same bytes from `a` up to `b`. -/
def Agree (f g : Memory) (a b : Nat) : Prop := ∀ i, a ≤ i → i < b → f i = g i

instance (f g : Memory) (a b : Nat) : Decidable (Agree f g a b) :=
  inferInstanceAs (Decidable (∀ i, a ≤ i → i < b → f i = g i))

theorem Agree.loadWord (h : Agree f g a b) {c : Nat} (low : a ≤ c) (high : c + 4 ≤ b) :
    loadWord f c = loadWord g c := by
  unfold Words.loadWord
  rw [h c (by omega) (by omega), h (c + 1) (by omega) (by omega), h (c + 2) (by omega) (by omega),
    h (c + 3) (by omega) (by omega)]

variable (f : Memory)

def loadHalf (a : Nat) : BitVec 16 := f (a + 1) ++ f a

def loadDouble (a : Nat) : BitVec 64 := loadWord f (a + 4) ++ loadWord f a

def storeHalf (a : Nat) (v : BitVec 16) : Memory := fun b =>
  if b = a then v.extractLsb' 0 8 else if b = a + 1 then v.extractLsb' 8 8 else f b

theorem loadHalf_storeHalf_same (a : Nat) (v : BitVec 16) : loadHalf (storeHalf f a v) a = v := by
  have bytes : v.extractLsb' 8 8 ++ v.extractLsb' 0 8 = v := by grind
  unfold loadHalf storeHalf
  simpa using bytes

theorem loadHalf_storeHalf_other (v : BitVec 16) (h : b + 2 ≤ a ∨ a + 2 ≤ b) :
    loadHalf (storeHalf f a v) b = loadHalf f b := by
  unfold loadHalf storeHalf
  rw [if_neg (by omega), if_neg (by omega), if_neg (by omega), if_neg (by omega)]

end QemuStm32.Words
