import QemuStm32.Fault
import QemuStm32.Lib.Bits

/-! The GPIO port of the STM32L board, `hw/stm32_gpio.c`. -/

namespace QemuStm32.Stm32

open List

/-- `NB_PIN`, the number of input and output lines of a port. -/
def nbPin : Nat := 15

/-- `stm32_gpio_state`. A line of `irqOut` holds the level last driven on it,
`none` while it has never been driven. -/
structure GpioState where
  mode : BitVec 32
  otype : BitVec 16
  ospeed : BitVec 32
  pupd : BitVec 32
  ind : BitVec 16
  outd : BitVec 16
  outdOld : BitVec 16
  bsr : BitVec 32
  lck : BitVec 32
  afrl : BitVec 32
  afrh : BitVec 32
  irqOut : Nat → Option Bool
  id : Char

/-- The two bits that pin `i` has in the mode and pull registers. -/
def pinMask (i : Nat) : BitVec 32 := (1#32 <<< (i * 2)) ||| (1#32 <<< (i * 2 + 1))

variable (s : GpioState)

def qemuSetIrq (i : Nat) (level : Bool) : GpioState :=
  { s with irqOut := fun j => if j = i then some level else s.irqOut j }

/-- The body of the pin loop of `stm32_gpio_update`. -/
def updatePin (changed : BitVec 16) (s : GpioState) (i : Nat) : GpioState :=
  let mask : BitVec 16 := 1#16 <<< i
  if changed &&& mask ≠ 0#16 then
    if s.mode &&& pinMask i ≠ 0#32 then qemuSetIrq s i (decide (s.outd &&& mask ≠ 0#16)) else s
  else s

/-- The loop bound is the literal 8 of the source, not `NB_PIN`. -/
def stm32GpioUpdate : GpioState :=
  let changed := s.outdOld ^^^ s.outd
  if changed = 0#16 then s
  else (List.range 8).foldl (updatePin changed) { s with outdOld := s.outd }

/-- One round of the bit set/reset loop: reset first, then set. -/
def bsrBit (low high outd : BitVec 16) (i : Nat) : BitVec 16 :=
  let mask : BitVec 16 := 1#16 <<< i
  let outd := if high &&& mask ≠ 0#16 then outd &&& ~~~mask else outd
  if low &&& mask ≠ 0#16 then outd ||| mask else outd

/-- `(uint16_t)value >> 16`: the cast binds first, so the shift is applied to a
16-bit value promoted to `int`. -/
def highHalf (value : BitVec 32) : BitVec 16 :=
  (((value.setWidth 16).setWidth 32) >>> 16).setWidth 16

def stm32GpioWrite (offset : Nat) (value : BitVec 32) : Except Fault GpioState :=
  let low : BitVec 16 := value.setWidth 16
  let high : BitVec 16 := highHalf value
  match offset with
  | 0x00 => .ok { s with mode := value }
  | 0x04 => .ok { s with otype := value.setWidth 16 }
  | 0x08 => .ok { s with ospeed := value }
  | 0x0C => .ok { s with pupd := value }
  | 0x10 => .ok s
  | 0x14 => .ok (stm32GpioUpdate { s with outd := value.setWidth 16 })
  | 0x18 => .ok (stm32GpioUpdate { s with outd := (List.range 16).foldl (bsrBit low high) s.outd })
  | 0x1C => .ok s
  | 0x20 => .ok { s with afrl := value }
  | 0x24 => .ok { s with afrh := value }
  | _ => .error (.hwError "stm32_gpio_write: Bad offset %x\n" [offset])

def stm32GpioReset : GpioState :=
  let (mode, pupd, ospeed) : BitVec 32 × BitVec 32 × BitVec 32 :=
    match s.id with
    | 'A' => (0xA8000000, 0x64000000, 0x00000000)
    | 'B' => (0x00000280, 0x00000100, 0x000000C0)
    | _ => (0, 0, 0)
  { s with
    mode := mode, pupd := pupd, ospeed := ospeed
    ind := 0, otype := 0, outd := 0, outdOld := 0
    bsr := 0, lck := 0, afrh := 0, afrl := 0 }

/-- A port as `stm32_gpio_init` leaves it: zeroed by the device model, then
reset, with no line driven yet. -/
def stm32GpioInit (id : Char) : GpioState :=
  stm32GpioReset ⟨0, 0, 0, 0, 0, 0, 0, 0, 0, 0, 0, fun _ => none, id⟩

def stm32GpioInRecv (numPin : Nat) (level : Int) : Except Fault GpioState :=
  if numPin < nbPin then
    let mask := pinMask numPin
    if s.pupd &&& mask = 0#32 then .ok s
    else if s.mode &&& mask ≠ 0#32 then .ok s
    else if level ≠ 0 then .ok { s with ind := s.ind ||| (1#16 <<< numPin) }
    else .ok { s with ind := s.ind &&& ~~~(1#16 <<< numPin) }
  else .error (.assertFailed "numPin>=0 && numPin<NB_PIN")

/-! ## What one update drives -/

theorem updatePin_eq (changed : BitVec 16) (s : GpioState) {i : Nat} (hi : i < 16) :
    updatePin changed s i = { s with
      irqOut := fun j =>
        if j = i ∧ changed.getLsbD i = true ∧ s.mode &&& pinMask i ≠ 0#32 then
          some (s.outd.getLsbD i)
        else s.irqOut j } := by
  have bit : decide (s.outd &&& (1#16 <<< i) ≠ 0#16) = s.outd.getLsbD i := by
    simp only [Bits.and_bit_ne_zero s.outd hi, Bool.decide_eq_true]
  unfold updatePin qemuSetIrq
  simp only [Bits.and_bit_ne_zero changed hi, bit]
  by_cases hc : changed.getLsbD i = true
  · by_cases hm : s.mode &&& pinMask i = 0#32
    · simp [hm]
    · simp [hc, hm]
  · simp [hc]

/-- The pin loop up to `n` drives the changed pins below `n` that are not in
input mode, and touches nothing else. -/
theorem updatePins_eq (changed : BitVec 16) (s : GpioState) {n : Nat} (hn : n ≤ 16) :
    (List.range n).foldl (updatePin changed) s = { s with
      irqOut := fun j =>
        if j < n ∧ changed.getLsbD j = true ∧ s.mode &&& pinMask j ≠ 0#32 then
          some (s.outd.getLsbD j)
        else s.irqOut j } := by
  induction n with
  | zero => simp
  | succ n ih =>
    rw [range_succ, foldl_append, ih (by omega), foldl_cons, foldl_nil,
      updatePin_eq changed _ (by omega)]
    congr 1
    funext j
    by_cases hj : j = n
    · subst hj; simp
    · have : j < n + 1 ↔ j < n := by omega
      simp [hj, this]

/-- After an update the two output registers agree, and the pins 0 to 7 that
changed while not in input mode carry their new bit. -/
theorem stm32GpioUpdate_eq : stm32GpioUpdate s = { s with
      outdOld := s.outd
      irqOut := fun j =>
        if j < 8 ∧ s.outdOld.getLsbD j ≠ s.outd.getLsbD j ∧ s.mode &&& pinMask j ≠ 0#32 then
          some (s.outd.getLsbD j)
        else s.irqOut j } := by
  unfold stm32GpioUpdate
  by_cases h : s.outdOld ^^^ s.outd = 0#16
  · cases s
    simp_all
  · simp only [h, ↓reduceIte, updatePins_eq _ _ (show 8 ≤ 16 by decide), BitVec.getLsbD_xor,
      bne_iff_ne, ne_eq]

theorem highHalf_eq_zero (value : BitVec 32) : highHalf value = 0#16 := by
  apply BitVec.eq_of_getLsbD_eq
  simp [highHalf]

/-- What a bit set/reset write leaves in the output register: the reset half is
always empty, so the low half is added to what was there. -/
theorem bsrBits_eq (value : BitVec 32) (outd : BitVec 16) :
    (List.range 16).foldl (bsrBit (value.setWidth 16) (highHalf value)) outd =
      outd ||| value.setWidth 16 := by
  rw [highHalf_eq_zero]
  generalize value.setWidth 16 = low
  have part : ∀ n ≤ 16, ∀ j, ((range n).foldl (bsrBit low 0#16) outd).getLsbD j =
      (outd.getLsbD j || (decide (j < n) && low.getLsbD j)) := by
    intro n hn
    induction n with
    | zero => simp
    | succ n ih =>
      intro j
      rw [range_succ, foldl_append, foldl_cons, foldl_nil]
      simp only [bsrBit, Bits.and_bit_ne_zero _ (show n < 16 by omega), BitVec.getLsbD_zero,
        Bool.false_eq_true, if_false]
      cases hb : low.getLsbD n
      · rw [if_neg (by simp), ih (by omega)]
        by_cases hj : j = n
        · subst hj; simp [hb]
        · simp [show j < n + 1 ↔ j < n by omega]
      · rw [if_pos rfl, Bits.or_bit, ih (by omega)]
        by_cases hj : j = n
        · subst hj; simp [hb, show j < 16 by omega]
        · simp [hj, show j < n + 1 ↔ j < n by omega]
  apply BitVec.eq_of_getLsbD_eq
  intro j hj
  rw [part 16 (le_refl _) j]
  simp [hj]

end QemuStm32.Stm32
