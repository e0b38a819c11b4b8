import QemuStm32.Tcg.Optimize
import QemuStm32.Tcg.Semantics
import QemuStm32.Lib.Runs

/-!
# Folding computes what the operation computes

`do_constant_folding` works on 64-bit words, whatever the operation's type;
the results agree with the meaning of the operations in their own width.
-/

namespace QemuStm32.Tcg

open BitVec

/-- The compiled shifts take the count modulo the width, as the instructions of
x86-64 do. -/
structure HostShift.Masks (h : HostShift) : Prop where
  shl : ∀ w (x : BitVec w) count, h.shl w x count = x <<< (count % w)
  shr : ∀ w (x : BitVec w) count, h.shr w x count = x >>> (count % w)

def Opcode.isRotate : Opcode → Bool
  | .binary .rotl _ | .binary .rotr _ => true
  | _ => false

variable {w k n : Nat} {r : BitVec 64} {op : Opcode}

theorem HostShift.Masks.left {h : HostShift} (masks : h.Masks) (x : BitVec w) (count : Nat) :
    h.left x count = x <<< (count % w) := by
  unfold HostShift.left
  split
  · rename_i small
    rw [Nat.mod_eq_of_lt small]
  · exact masks.shl w x count

theorem HostShift.Masks.right {h : HostShift} (masks : h.Masks) (x : BitVec w) (count : Nat) :
    h.right x count = x >>> (count % w) := by
  unfold HostShift.right
  split
  · rename_i small
    rw [Nat.mod_eq_of_lt small]
  · exact masks.shr w x count

theorem rotateRight_eq (x : BitVec w) (small : k < w) :
    x <<< ((w - k) % w) ||| x >>> k = x.rotateRight k := by
  rw [rotateRight_def, Nat.mod_eq_of_lt small, BitVec.or_comm]
  cases k with
  | zero => simp
  | succ k => rw [Nat.mod_eq_of_lt (by omega : w - (k + 1) < w)]

theorem rotateLeft_eq (x : BitVec w) (small : k < w) :
    x <<< k ||| x >>> ((w - k) % w) = x.rotateLeft k := by
  rw [rotateLeft_def, Nat.mod_eq_of_lt small]
  cases k with
  | zero => simp [ushiftRight_eq_zero]
  | succ k => rw [Nat.mod_eq_of_lt (by omega : w - (k + 1) < w)]

/-! ## The low half of a word -/

section
variable (x : BitVec 64)

theorem mask_low : (x &&& 0xffffffff#64).setWidth 32 = x.setWidth 32 := by
  ext i hi
  simp only [getElem_setWidth, getLsbD_and]
  have : (0xffffffff#64).getLsbD i = true := by
    have : ∀ i < 32, (0xffffffff#64).getLsbD i = true := by decide
    exact this i hi
  simp [this]

theorem low_sub (x y : BitVec 64) : (x - y).setWidth 32 = x.setWidth 32 - y.setWidth 32 := by
  apply eq_of_toNat_eq
  simp only [toNat_setWidth, toNat_sub]
  omega

theorem low_neg : (-x).setWidth 32 = -(x.setWidth 32) := by
  apply eq_of_toNat_eq
  simp only [toNat_setWidth, toNat_neg]
  omega

theorem low_not : (~~~x).setWidth 32 = ~~~(x.setWidth 32) := by
  simp

theorem low_signExtend (x : BitVec n) : (x.signExtend 64).setWidth 32 = x.signExtend 32 := by
  ext i hi
  have wide : i < 64 := by omega
  simp [getElem_signExtend, wide]

theorem low_low (small : n ≤ 32) : (x.setWidth 32).setWidth n = x.setWidth n := by
  ext i hi
  simp
  omega

end

/-! ## Operations with two inputs -/

section
variable {h : HostShift} {f : Binary} {x y : BitVec 64}

/-- The counts of a rotation whose count is below 32, given as a word with any upper half. -/
theorem count_low (y : BitVec 64) (small : y.toNat % 2 ^ 32 < 32) :
    y.toNat % 32 = y.toNat % 2 ^ 32 ∧ (32 - y).toNat % 32 = (32 - y.toNat % 2 ^ 32) % 32 := by
  have width : (32 : BitVec 64).toNat = 32 := rfl
  rw [toNat_sub]
  omega

theorem count_wide (y : BitVec 64) (small : y.toNat < 64) :
    (64 - y).toNat % 64 = (64 - y.toNat) % 64 := by
  have width : (64 : BitVec 64).toNat = 64 := rfl
  rw [toNat_sub]
  omega

/-- A shift that has a result. -/
theorem shift_some {count : Nat} {a r : BitVec n}
    (hr : (if count < n then some a else none) = some r) : count < n ∧ a = r := by
  split at hr
  · rename_i small
    exact ⟨small, Option.some.inj hr⟩
  · cases hr

theorem fold_low (rotates : h.Masks ∨ (Opcode.binary f .i32).isRotate = false) {r : BitVec 32}
    (hr : f.apply (x.setWidth 32) (y.setWidth 32) = some r) :
    ∃ v, doConstantFolding2 h (.binary f .i32) x y = .ok v ∧ v.setWidth 32 = r := by
  cases f with
  | add => exact ⟨_, rfl, (setWidth_add x y (by omega)).trans (Option.some.inj hr)⟩
  | sub => exact ⟨_, rfl, (low_sub x y).trans (Option.some.inj hr)⟩
  | mul => exact ⟨_, rfl, (setWidth_mul x y (by omega)).trans (Option.some.inj hr)⟩
  | and | or | xor | andc | orc | eqv | nand | nor =>
    refine ⟨_, rfl, ?_⟩
    simp only [setWidth_and, setWidth_or, setWidth_xor, low_not]
    exact Option.some.inj hr
  | shl | shr =>
    obtain ⟨small, rfl⟩ := shift_some hr
    refine ⟨_, rfl, ?_⟩
    rw [setWidth_setWidth_of_le _ (by omega), setWidth_eq]
    exact if_pos small
  | sar =>
    obtain ⟨small, rfl⟩ := shift_some hr
    refine ⟨_, rfl, ?_⟩
    rw [HostShift.arith, if_pos small, low_signExtend, signExtend_eq]
  | rotl | rotr =>
    obtain ⟨small, rfl⟩ := shift_some hr
    have masks : h.Masks := rotates.resolve_right (by decide)
    refine ⟨_, rfl, ?_⟩
    rw [setWidth_setWidth_of_le _ (by omega), setWidth_eq, masks.left, masks.right]
    simp only [← rotateLeft_eq _ small, ← rotateRight_eq _ small]
    rw [toNat_setWidth] at small ⊢
    rw [(count_low y small).1, (count_low y small).2]

theorem fold_wide (rotates : h.Masks ∨ (Opcode.binary f .i64).isRotate = false)
    (hr : f.apply x y = some r) : doConstantFolding2 h (.binary f .i64) x y = .ok r := by
  cases f with
  | shl | shr | sar =>
    obtain ⟨small, rfl⟩ := shift_some hr
    exact congrArg Except.ok (if_pos small)
  | rotl | rotr =>
    obtain ⟨small, rfl⟩ := shift_some hr
    have masks : h.Masks := rotates.resolve_right (by decide)
    simp only [← rotateLeft_eq _ small, ← rotateRight_eq _ small, ← count_wide y small,
      doConstantFolding2, masks.left, masks.right, Nat.mod_eq_of_lt small]
  | _ => exact congrArg Except.ok (Option.some.inj hr)

end

/-! ## `do_constant_folding` -/

theorem low_norm (x : BitVec 64) : (TCGType.i32.norm x).setWidth 32 = x.setWidth 32 := by
  simp [TCGType.norm]

variable (h : HostShift)

theorem doConstantFolding_ok {x y : Nat} {v : BitVec 64}
    (hv : doConstantFolding2 h op (BitVec.ofNat 64 x) (BitVec.ofNat 64 y) = .ok v) :
    ∃ res, doConstantFolding h op x y = .ok res ∧
      (opBits op).norm (BitVec.ofNat 64 res) = (opBits op).norm v := by
  unfold doConstantFolding
  rw [hv]
  refine ⟨_, rfl, ?_⟩
  cases opBits op with
  | i32 => simpa [TCGType.norm] using congrArg (BitVec.setWidth 64) (mask_low v)
  | i64 => simp

theorem doConstantFolding_binary {h : HostShift} {f : Binary} {type : TCGType}
    (rotates : h.Masks ∨ (Opcode.binary f type).isRotate = false) (x y : Nat) :
    ∃ res, doConstantFolding h (.binary f type) x y = .ok res ∧
      ∀ r, f.eval (type.norm (BitVec.ofNat 64 x)) (type.norm (BitVec.ofNat 64 y)) type = some r →
        type.norm (BitVec.ofNat 64 res) = r := by
  have total : ∃ v, doConstantFolding2 h (.binary f type) (BitVec.ofNat 64 x)
      (BitVec.ofNat 64 y) = .ok v := by
    cases f <;> cases type <;> exact ⟨_, rfl⟩
  obtain ⟨v, hv⟩ := total
  obtain ⟨res, hres, value⟩ := doConstantFolding_ok h hv
  refine ⟨res, hres, fun r hr => ?_⟩
  cases type with
  | i32 =>
    simp only [Binary.eval, low_norm] at hr
    obtain ⟨low, hlow, rfl⟩ := Option.map_eq_some_iff.mp hr
    obtain ⟨v', hv', rfl⟩ := fold_low rotates hlow
    obtain rfl : v = v' := Except.ok.inj (hv.symm.trans hv')
    exact value
  | i64 => exact value.trans (Except.ok.inj (hv.symm.trans (fold_wide rotates hr)))

/-- What an operation with one input that can be folded computes. -/
def Opcode.unaryFn : Opcode → Option (BitVec 64 → BitVec 64)
  | .unary f type => some fun x => f.eval x type
  | .ext32s => some fun x => (x.setWidth 32).signExtend 64
  | .ext32u => some fun x => (x.setWidth 32).setWidth 64
  | _ => none

variable {g : BitVec 64 → BitVec 64}

theorem fold_unary (one : op.unaryFn = some g) (x : BitVec 64) :
    ∃ v, doConstantFolding2 h op x 0 = .ok v ∧ (opBits op).norm v = g (op.readType.norm x) := by
  cases op with
  | ext32s | ext32u =>
    cases one
    refine ⟨_, rfl, ?_⟩
    dsimp only [Opcode.readType]
    rw [low_norm]
    rfl
  | unary f type =>
    cases one
    refine ⟨f.apply x, by cases f <;> rfl, ?_⟩
    cases type with
    | i64 => rfl
    | i32 =>
      refine congrArg (BitVec.setWidth 64) (Eq.trans ?_ (congrArg f.apply (low_norm x).symm))
      cases f with
      | not => exact low_not x
      | neg => exact low_neg x
      | ext8s => simp only [Unary.apply, low_signExtend, low_low x (by omega : 8 ≤ 32)]
      | ext8u =>
        simp only [Unary.apply, low_low x (by omega : 8 ≤ 32)]
        exact setWidth_setWidth_of_le _ (by omega)
      | ext16s => simp only [Unary.apply, low_signExtend, low_low x (by omega : 16 ≤ 32)]
      | ext16u =>
        simp only [Unary.apply, low_low x (by omega : 16 ≤ 32)]
        exact setWidth_setWidth_of_le _ (by omega)
  | _ => cases one

theorem doConstantFolding_unary (one : op.unaryFn = some g) (x : Nat) :
    ∃ res, doConstantFolding h op x 0 = .ok res ∧
      (opBits op).norm (BitVec.ofNat 64 res) = g (op.readType.norm (BitVec.ofNat 64 x)) := by
  obtain ⟨v, hv, same⟩ := fold_unary h one (BitVec.ofNat 64 x)
  obtain ⟨res, hres, value⟩ := doConstantFolding_ok h hv
  exact ⟨res, hres, value.trans same⟩

/-! ## Shifts that C leaves undefined -/

/-- The shifts that `do_constant_folding_2` evaluates: the width and the count of each. -/
def hostShifts (op : Opcode) (y : BitVec 64) : List (Nat × Nat) :=
  match op with
  | .binary .shl .i32 | .binary .shr .i32 | .binary .sar .i32 => [(32, (y.setWidth 32).toNat)]
  | .binary .shl .i64 | .binary .shr .i64 | .binary .sar .i64 => [(64, y.toNat)]
  | .binary .rotl .i32 | .binary .rotr .i32 => [(32, (32 - y).toNat), (32, y.toNat)]
  | .binary .rotl .i64 | .binary .rotr .i64 => [(64, (64 - y).toNat), (64, y.toNat)]
  | _ => []

def ShiftsDefined (op : Opcode) (y : BitVec 64) : Prop := ∀ s ∈ hostShifts op y, s.2 < s.1

/-- Without undefined shifts the host does not matter. -/
theorem doConstantFolding2_host {y : BitVec 64} (defined : ShiftsDefined op y) (h h' : HostShift)
    (x : BitVec 64) : doConstantFolding2 h op x y = doConstantFolding2 h' op x y := by
  cases op with
  | binary f type =>
    cases f <;> cases type <;>
      simp_all [ShiftsDefined, hostShifts, doConstantFolding2, HostShift.left, HostShift.right,
        HostShift.arith]
  | unary f type => cases f <;> rfl
  | _ => rfl

/-- The instructions of x86-64. -/
def maskingHost : HostShift :=
  ⟨fun w x count => x <<< (count % w), fun w x count => x >>> (count % w),
    fun w x count => x.sshiftRight (count % w)⟩

/-- What an operation that can be folded computes, on arguments with any upper half. -/
def Opcode.value (op : Opcode) (x y : BitVec 64) : Option (BitVec 64) :=
  match op with
  | .binary f type => f.eval (type.norm x) (type.norm y) type
  | .unary f type => some (f.eval (type.norm x) type)
  | .ext32s => some (((TCGType.i32.norm x).setWidth 32).signExtend 64)
  | .ext32u => some (((TCGType.i32.norm x).setWidth 32).setWidth 64)
  | _ => none

def TCGType.width : TCGType → Nat
  | .i32 => 32
  | .i64 => 64

/-- Folding on a host that masks the counts. -/
theorem doConstantFolding_masking {x y : Nat}
    (value : op.value (BitVec.ofNat 64 x) (BitVec.ofNat 64 y) = some r) :
    ∃ res, doConstantFolding maskingHost op x y = .ok res ∧
      (opBits op).norm (BitVec.ofNat 64 res) = r := by
  have masks : maskingHost.Masks := ⟨fun _ _ _ => rfl, fun _ _ _ => rfl⟩
  cases op with
  | binary f type =>
    have rotates : maskingHost.Masks ∨ (Opcode.binary f type).isRotate = false := .inl masks
    obtain ⟨res, folded, result⟩ := doConstantFolding_binary rotates x y
    refine ⟨res, folded, ?_⟩
    cases f <;> cases type <;> exact result r value
  | unary f type =>
    obtain ⟨res, folded, result⟩ :=
      doConstantFolding_unary maskingHost (rfl : (Opcode.unary f type).unaryFn = _) x
    refine ⟨res, Eq.trans ?_ folded, ?_⟩
    · cases f <;> rfl
    · cases type <;> exact result.trans (Option.some.inj value)
  | ext32s =>
    obtain ⟨res, folded, result⟩ :=
      doConstantFolding_unary maskingHost (rfl : Opcode.ext32s.unaryFn = _) x
    exact ⟨res, folded, result.trans (Option.some.inj value)⟩
  | ext32u =>
    obtain ⟨res, folded, result⟩ :=
      doConstantFolding_unary maskingHost (rfl : Opcode.ext32u.unaryFn = _) x
    exact ⟨res, folded, result.trans (Option.some.inj value)⟩
  | _ => cases value

/-- The counts of a rotation and of its complement are both below the width. -/
theorem shiftsDefined_iff {x y : BitVec 64} (value : op.value x y = some r) :
    ShiftsDefined op y ↔ (op.isRotate = true → y.toNat ≠ 0 ∧ y.toNat < (opBits op).width) := by
  have rotation w (small : w = 32 ∨ w = 64) :
      (w - y).toNat < w.toNat ∧ y.toNat < w.toNat ↔ y.toNat ≠ 0 ∧ y.toNat < w.toNat := by
    rw [toNat_sub]
    omega
  have pair (s t : Nat × Nat) : (∀ u ∈ [s, t], u.2 < u.1) ↔ s.2 < s.1 ∧ t.2 < t.1 := by
    simp
  cases op with
  | binary f type =>
    cases f with
    | shl | shr | sar =>
      refine ⟨fun _ no => (by cases no), fun _ => ?_⟩
      cases type with
      | i32 =>
        simp only [Opcode.value, Binary.eval, low_norm] at value
        obtain ⟨low, shifted, -⟩ := Option.map_eq_some_iff.mp value
        simpa [ShiftsDefined, hostShifts] using (shift_some shifted).1
      | i64 =>
        simpa [ShiftsDefined, hostShifts, TCGType.norm] using (shift_some value).1
    | rotl | rotr =>
      cases type with
      | i32 => exact (pair _ _).trans ((rotation 32 (.inl rfl)).trans (imp_iff_right rfl).symm)
      | i64 => exact (pair _ _).trans ((rotation 64 (.inr rfl)).trans (imp_iff_right rfl).symm)
    | _ =>
      refine ⟨fun _ no => (by cases no), fun _ s hs => ?_⟩
      cases type <;> cases hs
  | _ => exact ⟨fun _ no => (by cases no), fun _ s hs => (by cases hs)⟩

/-- Folding evaluates no undefined shift and gives the value of the operation, exactly unless it
is a rotation whose count, as the whole word, is zero or not below the width. -/
theorem folding_defined_iff (op : Opcode) (x y : Nat) (r : BitVec 64)
    (value : op.value (BitVec.ofNat 64 x) (BitVec.ofNat 64 y) = some r) :
    (ShiftsDefined op (BitVec.ofNat 64 y) ∧ ∃ res, doConstantFolding h op x y = .ok res ∧
        (opBits op).norm (BitVec.ofNat 64 res) = r) ↔
      (op.isRotate = true → (BitVec.ofNat 64 y).toNat ≠ 0 ∧
        (BitVec.ofNat 64 y).toNat < (opBits op).width) := by
  refine ⟨fun good => (shiftsDefined_iff value).mp good.1, fun counts => ?_⟩
  have defined := (shiftsDefined_iff value).mpr counts
  refine ⟨defined, ?_⟩
  unfold doConstantFolding
  rw [doConstantFolding2_host defined h maskingHost]
  exact doConstantFolding_masking value

theorem rotate_by_one_folded :
    (Opcode.binary .rotr .i32).value 1#64 1#64 = some 0x80000000#64 ∧
      ShiftsDefined (.binary .rotr .i32) 1#64 ∧
      ∃ res, doConstantFolding maskingHost (.binary .rotr .i32) 1 1 = .ok res ∧
        TCGType.i32.norm (BitVec.ofNat 64 res) = 0x80000000#64 :=
  ⟨by decide, (folding_defined_iff maskingHost (.binary .rotr .i32) 1 1 0x80000000#64
    (by decide)).mpr fun _ => by decide⟩

/-- A rotation by zero shifts by the whole width, and one whose count has an upper half shifts by
more. -/
theorem rotate_shift_undefined :
    (Opcode.binary .rotr .i32).value 1#64 0#64 = some 1#64 ∧
      ¬ ShiftsDefined (.binary .rotr .i32) 0#64 ∧
      (Opcode.binary .rotl .i32).value 1#64 0x100000001#64 = some 2#64 ∧
      ¬ ShiftsDefined (.binary .rotl .i32) 0x100000001#64 := by
  refine ⟨by decide, fun defined => ?_, by decide, fun defined => ?_⟩ <;>
    exact absurd (defined _ List.mem_cons_self) (by decide)

/-! ## Identities the optimizer uses -/

theorem eval_comm {f : Binary} (comm : f.commutes = true) (x y : BitVec 64) (type : TCGType) :
    f.eval x y type = f.eval y x type := by
  have apply : ∀ {n : Nat} (x y : BitVec n), f.apply x y = f.apply y x := by
    intro n x y
    cases f with
    | add => exact congrArg some (BitVec.add_comm x y)
    | mul => exact congrArg some (BitVec.mul_comm x y)
    | and | nand => simp only [Binary.apply, BitVec.and_comm x y]
    | or | nor => simp only [Binary.apply, BitVec.or_comm x y]
    | xor | eqv => simp only [Binary.apply, BitVec.xor_comm x y]
    | _ => cases comm
  cases type with
  | i32 => simp only [Binary.eval, apply (x.setWidth 32)]
  | i64 => exact apply x y

theorem eval_zero {f : Binary} (neutral : f.zeroNeutral = true) (x : BitVec 64) (type : TCGType) :
    f.eval x 0 type = some (type.norm x) := by
  have apply : ∀ {n : Nat} (x : BitVec n), 0 < n → f.apply x 0 = some x := by
    intro n x pos
    cases f with
    | add | sub => simp [Binary.apply]
    | shl | shr | sar => simp [Binary.apply, pos]
    | rotl => simp [Binary.apply, pos, rotateLeft_def, ushiftRight_eq_zero]
    | rotr => simp [Binary.apply, pos, rotateRight_def]
    | _ => cases neutral
  cases type with
  | i32 =>
    have zero : (0 : BitVec 64).setWidth 32 = 0 := rfl
    rw [Binary.eval, zero, apply _ (by omega)]
    rfl
  | i64 => exact apply x (by omega)

theorem eval_mul_zero (x : BitVec 64) (type : TCGType) : Binary.mul.eval x 0 type = some 0 := by
  cases type <;> simp [Binary.eval, Binary.apply]

theorem eval_self {f : Binary} (same : f = .or ∨ f = .and) (x : BitVec 64) (type : TCGType) :
    f.eval x x type = some (type.norm x) := by
  obtain rfl | rfl := same <;> cases type <;> simp [Binary.eval, Binary.apply, TCGType.norm]

end QemuStm32.Tcg
