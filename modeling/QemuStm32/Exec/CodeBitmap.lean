import QemuStm32.Exec.BlockLists

/-!
# The bitmap of the code on a page

* `setBits_spec`: the three cases of `set_bits` together set the bits of a range;
* `buildLoop_spec`: the bitmap that is built has the bytes of a page that its blocks cover.
-/

namespace QemuStm32.Tb

open Runs SlotLists List

/-- Bit `j` of a bitmap. -/
def bit (tab : List Byte) (j : Nat) : Bool := ((tab[j / 8]?).getD 0).getLsbD (j % 8)

section
variable {tab : List Byte} {i j start len : Nat} {a m : Nat}

theorem highMask : ∀ {a}, a < 8 → ∀ {m}, m < 8 →
    ((0xff : Byte) <<< a).getLsbD m = decide (a ≤ m) := by
  decide

theorem lowMask (ha : a < 8) (hm : m < 8) :
    (~~~((0xff : Byte) <<< a)).getLsbD m = decide (m < a) := by
  rw [BitVec.getLsbD_not, highMask ha hm, decide_eq_true hm, ← decide_not]
  exact decide_eq_decide.mpr Nat.not_le

theorem bit_set (inside : i < tab.length) (b : Byte) (j : Nat) :
    bit (tab.set i b) j = if j / 8 = i then b.getLsbD (j % 8) else bit tab j := by
  unfold bit
  rw [getElem?_set]
  by_cases same : i = j / 8
  · rw [if_pos same, if_pos inside, if_pos same.symm]
    rfl
  · rw [if_neg same, if_neg (Ne.symm same)]

theorem orByte_spec (inside : i < tab.length) (mask : Byte) :
    ∃ tab', orByte tab i mask = .ok tab' ∧ tab'.length = tab.length ∧
      ∀ j, bit tab' j = true ↔ bit tab j = true ∨ j / 8 = i ∧ mask.getLsbD (j % 8) = true := by
  unfold orByte
  rw [getElem?_eq_getElem inside]
  refine ⟨_, rfl, length_set .., fun j => ?_⟩
  rw [bit_set inside]
  by_cases same : j / 8 = i
  · rw [bit, same, getElem?_eq_getElem inside]
    simp
  · simp [same]

theorem fillBytes_spec (count : Nat) (inside : i + count ≤ tab.length) :
    ∃ tab', fillBytes count i tab = .ok tab' ∧ tab'.length = tab.length ∧
      ∀ j, bit tab' j = true ↔ bit tab j = true ∨ i ≤ j / 8 ∧ j / 8 < i + count := by
  induction count generalizing i tab with
  | zero => exact ⟨tab, rfl, rfl, fun j => ⟨.inl, fun h => h.elim id (by omega)⟩⟩
  | succ count ih =>
    have here : i < tab.length := by omega
    obtain ⟨tab', filled, length, bits⟩ := ih
      (show i + 1 + count ≤ (tab.set i 0xff).length by rw [length_set]; omega)
    refine ⟨tab', ?_, length.trans (length_set ..), fun j => ?_⟩
    · rw [fillBytes, if_pos here, filled]
    rw [bits, bit_set here]
    by_cases same : j / 8 = i
    · have full : (0xff : Byte).getLsbD (j % 8) = true := by
        rw [← BitVec.shiftLeft_zero 0xff, highMask (by decide) (by omega)]
        exact decide_eq_true (Nat.zero_le _)
      rw [if_pos same, full]
      exact ⟨fun _ => .inr (by omega), fun _ => .inl rfl⟩
    · rw [if_neg same]
      refine or_congr_right ?_
      omega

/-- `set_bits` sets the bits of its range, and writes nowhere else. -/
theorem setBits_spec (inside : start + len ≤ 8 * tab.length) :
    ∃ tab', setBits tab start len = .ok tab' ∧ tab'.length = tab.length ∧
      ∀ j, bit tab' j = true ↔ bit tab j = true ∨ start ≤ j ∧ j < start + len := by
  have high : ∀ j, ((0xff : Byte) <<< (start % 8)).getLsbD (j % 8) = decide (start % 8 ≤ j % 8) :=
    fun j => highMask (by omega) (by omega)
  have low : ∀ j, (~~~((0xff : Byte) <<< ((start + len) % 8))).getLsbD (j % 8) =
      decide (j % 8 < (start + len) % 8) := fun j => lowMask (by omega) (by omega)
  unfold setBits
  by_cases within : start / 8 = (start + len) / 8
  · rw [if_pos within]
    by_cases empty : start < start + len
    · rw [if_pos empty]
      obtain ⟨tab', set, length, bits⟩ := orByte_spec (show start / 8 < tab.length by omega) _
      refine ⟨tab', set, length, fun j => ?_⟩
      rw [bits, BitVec.getLsbD_and, high, low, Bool.and_eq_true, decide_eq_true_iff,
        decide_eq_true_iff]
      refine or_congr_right ?_
      omega
    · rw [if_neg empty]
      exact ⟨tab, rfl, rfl, fun j => ⟨.inl, fun h => h.elim id (by omega)⟩⟩
  · rw [if_neg within]
    obtain ⟨tab₁, set₁, length₁, bits₁⟩ := orByte_spec (show start / 8 < tab.length by omega) _
    obtain ⟨tab₂, set₂, length₂, bits₂⟩ := fillBytes_spec
      ((start + len) / 8 - (start / 8 + 1)) (show start / 8 + 1 + _ ≤ tab₁.length by omega)
    rw [set₁, ok_bind, set₂, ok_bind]
    by_cases more : (start + len) / 8 * 8 < start + len
    · rw [if_pos more]
      obtain ⟨tab₃, set₃, length₃, bits₃⟩ :=
        orByte_spec (show (start + len) / 8 < tab₂.length by omega) _
      refine ⟨tab₃, set₃, by omega, fun j => ?_⟩
      rw [bits₃, bits₂, bits₁, high, low, decide_eq_true_iff, decide_eq_true_iff, or_assoc,
        or_assoc]
      refine or_congr_right ?_
      omega
    · rw [if_neg more]
      refine ⟨tab₂, rfl, by omega, fun j => ?_⟩
      rw [bits₂, bits₁, high, decide_eq_true_iff, or_assoc]
      refine or_congr_right ?_
      omega

end

/-! ## The bitmap of a list of blocks -/

section
variable {k n rounds i : Nat} {s : State}

/-- The bytes of a page that an entry of its list covers. -/
def Covers (k : Nat) (s : State) (x : Node) (j : Nat) : Prop :=
  (bitmapPart k (s.tbs x.1) x.2).1 ≤ j ∧ j < (bitmapPart k (s.tbs x.1) x.2).2

theorem bitmapPart_le (k : Nat) (b : TranslationBlock) (m : Fin 2) :
    (bitmapPart k b m).1 ≤ (bitmapPart k b m).2 ∧ (bitmapPart k b m).2 ≤ 2 ^ k := by
  match m with
  | 0 | 1 =>
    unfold bitmapPart
    dsimp only
    omega

theorem buildLoop_spec {l : List Node} {slot : Slot Nat Node} (hangs : s.pages.Hangs slot l)
    (enough : l.length ≤ rounds) {tab : List Byte} (size : 8 * tab.length = 2 ^ k) :
    ∃ tab', buildLoop k s rounds l.head? tab = .ok tab' ∧ tab'.length = tab.length ∧
      ∀ j, bit tab' j = true ↔ bit tab j = true ∨ ∃ x ∈ l, Covers k s x j := by
  induction l generalizing rounds slot tab with
  | nil =>
    refine ⟨tab, by unfold buildLoop; rfl, rfl, fun j => ⟨.inl, ?_⟩⟩
    rintro (has | ⟨x, inside, -⟩)
    · exact has
    · cases inside
  | cons x l ih =>
    obtain ⟨rounds, rfl⟩ := Nat.exists_eq_add_one_of_ne_zero (Nat.ne_zero_of_lt enough)
    obtain ⟨tb, m⟩ := x
    obtain ⟨le, within⟩ := bitmapPart_le k (s.tbs tb) m
    have fits : (bitmapPart k (s.tbs tb) m).1 +
        ((bitmapPart k (s.tbs tb) m).2 - (bitmapPart k (s.tbs tb) m).1) ≤ 8 * tab.length := by
      omega
    obtain ⟨tab₁, set, length, bits⟩ := setBits_spec fits
    obtain ⟨tab', built, length', bits'⟩ := ih hangs.2 (Nat.le_of_succ_le_succ enough)
      (show 8 * tab₁.length = 2 ^ k by omega)
    refine ⟨tab', ?_, by omega, fun j => ?_⟩
    · rw [head?_cons, buildLoop]
      dsimp only
      rw [set, ← built]
      exact congrArg (fun q => buildLoop k s rounds q tab₁) hangs.2.read_eq
    · rw [bits', bits, or_assoc, exists_mem_cons_iff, Nat.add_sub_cancel' le]
      rfl

end

end QemuStm32.Tb
