import QemuStm32.Stm32.Outputs

/-!
# The bit set/reset register of a GPIO port

What a write to the register at 0x18 is for, and when the port does it: the
half of the value that resets bits never arrives, so a write is as documented
exactly when it has no bit to reset.
-/

namespace QemuStm32.Stm32

open BitVec Runs

/-- The writes that change the output data register. -/
inductive OutputWrite
  | direct (value : BitVec 32)
  | setReset (value : BitVec 32)

variable (s : GpioState)

def outputStep : OutputWrite → Except Fault GpioState
  | .direct value => stm32GpioWrite s 0x14 value
  | .setReset value => stm32GpioWrite s 0x18 value

/-- The bits that a value for the bit set/reset register resets. -/
def upperHalf (value : BitVec 32) : BitVec 16 := (value >>> 16).setWidth 16

/-- What a write is to leave in the output data register: the upper half of a
set/reset value clears bits, and then the lower half sets bits. -/
def documentedOutput (outd : BitVec 16) : OutputWrite → BitVec 16
  | .direct value => value.setWidth 16
  | .setReset value => (outd &&& ~~~upperHalf value) ||| value.setWidth 16

/-- What a write leaves there. -/
def writtenOutput (outd : BitVec 16) : OutputWrite → BitVec 16
  | .direct value => value.setWidth 16
  | .setReset value => outd ||| value.setWidth 16

/-- A set/reset write finds every bit that it resets clear, or sets the bit as well. -/
def NothingToReset : OutputWrite → Prop
  | .direct _ => True
  | .setReset value => s.outd &&& upperHalf value &&& ~~~(value.setWidth 16) = 0#16

theorem outputStep_written (w : OutputWrite) :
    ∃ t, outputStep s w = .ok t ∧ t.outd = writtenOutput s.outd w := by
  cases w with
  | direct value => exact ⟨_, rfl, by rw [stm32GpioUpdate_eq]; rfl⟩
  | setReset value => exact ⟨_, rfl, by rw [stm32GpioUpdate_eq, bsrBits_eq]; rfl⟩

/-- Bits that stay although they are to be cleared are those that are not set anyway. -/
theorem or_eq_clear_or_iff {w : Nat} (x clear set : BitVec w) :
    x ||| set = (x &&& ~~~clear) ||| set ↔ x &&& clear &&& ~~~set = 0#w := by
  rw [eq_of_getLsbD_eq_iff, eq_of_getLsbD_eq_iff]
  refine forall₂_congr fun i below => ?_
  simp only [getLsbD_or, getLsbD_and, getLsbD_not, below, decide_true, Bool.true_and, getLsbD_zero]
  cases x.getLsbD i <;> cases clear.getLsbD i <;> cases set.getLsbD i <;> decide

theorem written_documented_iff (w : OutputWrite) :
    writtenOutput s.outd w = documentedOutput s.outd w ↔ NothingToReset s w := by
  cases w with
  | direct value => exact ⟨fun _ => trivial, fun _ => rfl⟩
  | setReset value => exact or_eq_clear_or_iff _ _ _

/-- After every beginning of a sequence of writes the output data register is the fold of
the documented updates exactly when no write has a bit to reset. -/
theorem output_fold_iff (writes : List OutputWrite) :
    (∀ pre, pre <+: writes → ∃ t, run outputStep s pre = .ok t ∧
      t.outd = pre.foldl documentedOutput s.outd) ↔
    StepsMeet outputStep NothingToReset s writes := by
  induction writes generalizing s with
  | nil =>
    refine ⟨fun _ => trivial, fun _ pre begins => ?_⟩
    obtain rfl := List.prefix_nil.mp begins
    exact ⟨s, rfl, rfl⟩
  | cons w writes ih =>
    obtain ⟨u, stepped, written⟩ := outputStep_written s w
    constructor
    · intro folds
      -- the first write alone tells whether it is as documented
      obtain ⟨t, ran, first⟩ := folds [w] (List.cons_prefix_cons.mpr ⟨rfl, List.nil_prefix⟩)
      obtain rfl : u = t := by
        rw [run, stepped] at ran
        exact Except.ok.inj ran
      rw [written, List.foldl_cons, List.foldl_nil] at first
      refine .cons stepped ((written_documented_iff s w).mp first) ((ih u).mp ?_)
      intro pre begins
      obtain ⟨t, ran, last⟩ := folds (w :: pre) (List.cons_prefix_cons.mpr ⟨rfl, begins⟩)
      rw [run, stepped] at ran
      rw [List.foldl_cons, ← first, ← written] at last
      exact ⟨t, ran, last⟩
    · rintro ⟨nothing, rest⟩ pre begins
      cases pre with
      | nil => exact ⟨s, rfl, rfl⟩
      | cons v pre =>
        obtain ⟨rfl, inner⟩ := List.cons_prefix_cons.mp begins
        obtain ⟨t, ran, last⟩ := (ih u).mpr (rest u stepped) pre inner
        refine ⟨t, run_cons_ok.mpr ⟨u, stepped, ran⟩, ?_⟩
        rw [List.foldl_cons, ← (written_documented_iff s v).mpr nothing, ← written]
        exact last

/-- A bit that is set and then reset is still set. -/
theorem reset_write_lost :
    ((run outputStep (stm32GpioInit 'B') [.direct 0x0040, .setReset 0x00400000]).toOption.map
      fun t => t.outd) = some 0x0040 ∧
    [OutputWrite.direct 0x0040, .setReset 0x00400000].foldl documentedOutput
      (stm32GpioInit 'B').outd = 0 := by
  decide +kernel

end QemuStm32.Stm32
