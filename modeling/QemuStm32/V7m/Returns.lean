import QemuStm32.Lib.Bits
import QemuStm32.Lib.Runs
import QemuStm32.V7m.Cpu

/-!
# Returning from an exception

The entry to an exception and the return from it mirror each other: whatever the
handler did in between, if it restored what a handler has to restore, the CPU is
back where it was.
-/

namespace QemuStm32.V7m

open Words Nvic Runs

/-! ## The xPSR in its two forms -/

/-- The bits of the xPSR that the CPU keeps. -/
def xpsrBits : BitVec 32 := 0xff00fdff#32

theorem bit_getLsbD (b : Bool) (i : Nat) : (bit b).getLsbD i = (b && decide (i = 0)) := by
  cases b <;> simp [bit]

/-- The flags after the xPSR was written, in terms of its bits. -/
theorem xpsrWrite_flags (c : Cpu) (v : BitVec 32) :
    (xpsrWrite c v 0xfffffdff#32).nf = v ∧
      ((xpsrWrite c v 0xfffffdff#32).zf == 0#32) = v.getLsbD 30 ∧
      (xpsrWrite c v 0xfffffdff#32).cf = v.getLsbD 29 ∧
      (xpsrWrite c v 0xfffffdff#32).vf = (v <<< 3) &&& 0x80000000#32 ∧
      (xpsrWrite c v 0xfffffdff#32).qf = v.getLsbD 27 ∧
      (xpsrWrite c v 0xfffffdff#32).thumb = v.getLsbD 24 := by
  have test w {k : Nat} (small : k < 32) :
      decide (w &&& (1#32 <<< k) ≠ 0#32) = w.getLsbD k := by
    rw [Bool.eq_iff_iff, decide_eq_true_eq]
    exact Bits.and_bit_ne_zero w small
  have zero : (~~~v &&& cpsrZ == 0#32) = v.getLsbD 30 := by
    have h := test (~~~v) (show 30 < 32 by decide)
    simpa [cpsrZ, beq_eq_decide] using h
  have carry := test (v >>> 29) (show 0 < 32 by decide)
  exact ⟨rfl, zero, carry, rfl, test v (by decide), test v (by decide)⟩

theorem xpsrWrite_rest (c : Cpu) (v : BitVec 32) :
    (xpsrWrite c v 0xfffffdff#32).condexecBits &&& 3#32 = (v >>> 25) &&& 3#32 ∧
      (xpsrWrite c v 0xfffffdff#32).condexecBits &&& 0xfc#32 = (v >>> 8) &&& 0xfc#32 ∧
      BitVec.ofNat 32 (xpsrWrite c v 0xfffffdff#32).exception = v &&& 0x1ff#32 := by
  have bits : (xpsrWrite c v 0xfffffdff#32).condexecBits =
      (((c.condexecBits &&& ~~~3#32) ||| ((v >>> 25) &&& 3#32)) &&& 3#32) |||
        ((v >>> 8) &&& 0xfc#32) := rfl
  refine ⟨?_, ?_, BitVec.ofNat_toNat _ _⟩ <;> rw [bits] <;>
    simp only [BitVec.and_or_distrib_right, BitVec.and_assoc, BitVec.reduceAnd, BitVec.and_zero,
      BitVec.or_zero, BitVec.reduceNot, BitVec.zero_or]

/-- What an exception return writes is what is read afterwards. -/
theorem xpsrRead_xpsrWrite (c : Cpu) (v : BitVec 32) :
    xpsrRead (xpsrWrite c v 0xfffffdff#32) = v &&& xpsrBits := by
  obtain ⟨nf, zf, cf, vf, qf, thumb⟩ := xpsrWrite_flags c v
  obtain ⟨low, high, exception⟩ := xpsrWrite_rest c v
  unfold xpsrRead
  rw [nf, zf, cf, vf, qf, thumb, low, high, exception]
  apply BitVec.eq_of_getLsbD_eq
  intro i hi
  simp only [BitVec.getLsbD_or, BitVec.getLsbD_and, BitVec.getLsbD_shiftLeft,
    BitVec.getLsbD_ushiftRight, bit_getLsbD, xpsrBits]
  interval_cases i <;> simp

variable {c : Cpu} {r : Fin 16} {x : BitVec 32} {k : Nat} {m m₁ m₂ : Machine}

theorem ofNat_getLsbD {n i : Nat} (h : n < 512) (high : 9 ≤ i) :
    (BitVec.ofNat 32 n).getLsbD i = false := by
  have wide : 2 ^ 9 ≤ 2 ^ i := Nat.pow_le_pow_right (by decide) high
  rw [BitVec.getLsbD_ofNat, Nat.testBit_lt_two_pow (h.trans_le wide), Bool.and_false]

/-- The bit that records the alignment, and all others the CPU does not keep,
are clear in the xPSR it reads. -/
theorem xpsrRead_spare (h : c.exception < 512) {i : Nat} (spare : xpsrBits.getLsbD i = false) :
    (xpsrRead c).getLsbD i = false := by
  by_cases hi : i < 32
  · have hge : 9 ≤ i := by
      by_contra low
      interval_cases i <;> exact absurd spare (by decide)
    simp only [xpsrRead, BitVec.getLsbD_or, BitVec.getLsbD_and, BitVec.getLsbD_shiftLeft,
      BitVec.getLsbD_ushiftRight, bit_getLsbD, ofNat_getLsbD h hge]
    interval_cases i <;> first | exact absurd spare (by decide) | simp
  · exact BitVec.getLsbD_of_ge _ _ (by omega)

theorem xpsrRead_kept (h : c.exception < 512) (aligned : Bool) :
    (xpsrRead c ||| (if aligned then 0x200#32 else 0#32)) &&& xpsrBits = xpsrRead c := by
  apply BitVec.eq_of_getLsbD_eq
  intro i hi
  rw [BitVec.getLsbD_and, BitVec.getLsbD_or]
  cases kept : xpsrBits.getLsbD i with
  | false => rw [xpsrRead_spare h kept, Bool.and_false]
  | true =>
    have other : (if aligned then 0x200#32 else 0#32).getLsbD i = false := by
      have ne : i ≠ 9 := by
        rintro rfl
        exact absurd kept (by decide)
      cases aligned with
      | false => simp
      | true =>
        have one : (0x200#32) = 1#32 <<< 9 := rfl
        rw [if_pos rfl, one, BitVec.getLsbD_shiftLeft]
        grind
    rw [other, Bool.or_false, Bool.and_true]

theorem xpsrRead_aligned (h : c.exception < 512) (aligned : Bool) :
    (xpsrRead c ||| (if aligned then 0x200#32 else 0#32)) &&& 0x200#32 ≠ 0#32 ↔ aligned = true := by
  have clear : (xpsrRead c).getLsbD 9 = false := xpsrRead_spare h (by decide)
  have test := Bits.and_bit_ne_zero (xpsrRead c ||| (if aligned then 0x200#32 else 0#32))
    (show 9 < 32 by decide)
  rw [BitVec.getLsbD_or, clear] at test
  refine test.trans ?_
  cases aligned <;> decide

/-! ## Pushing and popping -/

section
variable (c : Cpu)

@[simp] theorem setReg_same (r : Fin 16) (v : BitVec 32) : (c.setReg r v).regs r = v :=
  if_pos rfl

theorem setReg_other {i : Fin 16} (v : BitVec 32) (h : i ≠ r) : (c.setReg r v).regs i = c.regs i :=
  if_neg h

@[simp] theorem setReg_setReg (r : Fin 16) (v w : BitVec 32) :
    (c.setReg r v).setReg r w = c.setReg r w := by
  simp only [Cpu.setReg]
  congr 1
  funext i
  split <;> rfl

theorem setReg_self (r : Fin 16) : c.setReg r (c.regs r) = c := by
  simp only [Cpu.setReg]
  congr 1
  funext i
  split
  · next hi => rw [hi]
  · rfl

/-- The address in the stack pointer. -/
def Machine.sp (m : Machine) : Nat := (m.cpu.regs 13).toNat

/-- The `n` words below the stack pointer are in RAM, and none wraps around. -/
structure RoomBelow (m : Machine) (n : Nat) : Prop where
  wrap : 4 * n ≤ m.sp
  low : m.mem.ramBase ≤ m.sp - 4 * n
  high : m.sp ≤ m.mem.ramBase + m.mem.ramSize

/-- `m'` is `m` with the words `vs` pushed, the first one first. -/
structure Pushed (m : Machine) (vs : List (BitVec 32)) (m' : Machine) : Prop where
  cpu : m'.cpu = m.cpu.setReg 13 (m.cpu.regs 13 - BitVec.ofNat 32 (4 * vs.length))
  nvic : m'.nvic = m.nvic
  ramBase : m'.mem.ramBase = m.mem.ramBase
  ramSize : m'.mem.ramSize = m.mem.ramSize
  words : ∀ i v, vs[i]? = some v → loadWord m'.mem.bytes (m.sp - 4 * (i + 1)) = v
  others : ∀ a, a < m.sp - 4 * vs.length ∨ m.sp ≤ a → m'.mem.bytes a = m.mem.bytes a

theorem sub_toNat (h : k ≤ x.toNat) : (x - BitVec.ofNat 32 k).toNat = x.toNat - k := by
  rw [BitVec.toNat_sub, BitVec.toNat_ofNat]
  omega

/-- One word pushed into RAM. -/
theorem v7mPush_ram (h : RoomBelow m 1) (v : BitVec 32) :
    (v7mPush m v).mem = { m.mem with bytes := storeWord m.mem.bytes (m.sp - 4) v } := by
  obtain ⟨wrap, low, high⟩ := h
  have addr : (m.cpu.regs 13 - 4#32).toNat = m.sp - 4 := sub_toNat wrap
  have ram : m.mem.isRam (m.sp - 4) = true := by
    simp only [PhysMemory.isRam, Bool.and_eq_true, decide_eq_true_eq]
    omega
  simp only [v7mPush, Machine.setReg, setReg_same, stlPhys, addr, ram, if_true]

theorem pushed {vs : List (BitVec 32)} (h : RoomBelow m vs.length) :
    Pushed m vs (vs.foldl v7mPush m) := by
  induction vs generalizing m with
  | nil =>
    refine ⟨?_, rfl, rfl, rfl, fun i v hv => by simp at hv, fun _ _ => rfl⟩
    exact (setReg_self m.cpu 13).symm.trans (congrArg _ (BitVec.sub_zero _).symm)
  | cons v vs ih =>
    obtain ⟨wrap, low, high⟩ := h
    rw [List.length_cons] at wrap low
    have mem := v7mPush_ram ⟨by omega, by omega, high⟩ v
    have sp : (v7mPush m v).sp = m.sp - 4 := sub_toNat (by
      change 4 ≤ m.sp
      omega)
    have rest : Pushed (v7mPush m v) vs (vs.foldl v7mPush (v7mPush m v)) := by
      refine ih ⟨by omega, ?_, ?_⟩ <;> rw [mem] <;> dsimp only <;> omega
    refine ⟨?_, rest.nvic, ?_, ?_, fun i w hw => ?_, fun a ha => ?_⟩
    · rw [List.foldl_cons, rest.cpu]
      change (m.cpu.setReg 13 (m.cpu.regs 13 - 4#32)).setReg 13
        ((m.cpu.setReg 13 (m.cpu.regs 13 - 4#32)).regs 13 - _) = _
      rw [setReg_setReg, setReg_same, BitVec.sub_sub, List.length_cons, Nat.mul_add,
        Nat.add_comm (4 * vs.length), BitVec.ofNat_add]
    · rw [List.foldl_cons, rest.ramBase, mem]
    · rw [List.foldl_cons, rest.ramSize, mem]
    · rw [List.foldl_cons]
      cases i with
      | zero =>
        cases hw
        -- the words pushed later lie below this one
        have kept : Agree (vs.foldl v7mPush (v7mPush m v)).mem.bytes (v7mPush m v).mem.bytes
            (m.sp - 4) (m.sp - 4 + 4) := by
          intro a ha _
          exact rest.others a (.inr (by omega))
        rw [kept.loadWord le_rfl le_rfl, mem]
        exact loadWord_storeWord_same _ _ _
      | succ i =>
        have word := rest.words i w hw
        rw [sp] at word
        rwa [show m.sp - 4 * (i + 1 + 1) = m.sp - 4 - 4 * (i + 1) by omega]
    · rw [List.foldl_cons, rest.others a (by rw [sp]; rw [List.length_cons] at ha; omega), mem]
      exact storeWord_other _ _ (by rw [List.length_cons] at ha; omega)

/-- The `n` words from the stack pointer up are in RAM. -/
structure RoomAbove (m : Machine) (n : Nat) : Prop where
  low : m.mem.ramBase ≤ m.sp
  high : m.sp + 4 * n ≤ m.mem.ramBase + m.mem.ramSize
  wrap : m.sp + 4 * n < 2 ^ 32

/-- `m'` is `m` with words popped into the registers `rs`. -/
structure Popped (m : Machine) (rs : List (Fin 16)) (m' : Machine) : Prop where
  sp : m'.cpu.regs 13 = m.cpu.regs 13 + BitVec.ofNat 32 (4 * rs.length)
  words : ∀ i r, rs[i]? = some r → m'.cpu.regs r = loadWord m.mem.bytes (m.sp + 4 * i)
  others : ∀ r, r ≠ 13 → r ∉ rs → m'.cpu.regs r = m.cpu.regs r
  rest : ∃ regs, m'.cpu = { m.cpu with regs := regs }
  mem : m'.mem = m.mem
  nvic : m'.nvic = m.nvic

theorem add_toNat (h : x.toNat + k < 2 ^ 32) : (x + BitVec.ofNat 32 k).toNat = x.toNat + k := by
  rw [BitVec.toNat_add, BitVec.toNat_ofNat, Nat.mod_eq_of_lt (show k < 2 ^ 32 by omega),
    Nat.mod_eq_of_lt h]

theorem v7mPop_ram (host : Host) (h : RoomAbove m 1) :
    v7mPop host m = (loadWord m.mem.bytes m.sp, m.setReg 13 (m.cpu.regs 13 + 4#32)) := by
  have ram : m.mem.isRam (m.cpu.regs 13).toNat = true := by
    obtain ⟨low, high, _⟩ := h
    simp only [PhysMemory.isRam, Bool.and_eq_true, decide_eq_true_eq]
    unfold Machine.sp at low high
    omega
  simp only [v7mPop, ldlPhys, ram, if_true]
  rfl

theorem popped (host : Host) {rs : List (Fin 16)} (h : RoomAbove m rs.length)
    (distinct : rs.Nodup) (no : 13 ∉ rs) : Popped m rs (rs.foldl (popInto host) m) := by
  induction rs generalizing m with
  | nil =>
    exact ⟨by simp, fun i r hr => by simp at hr, fun _ _ _ => rfl, ⟨m.cpu.regs, rfl⟩, rfl, rfl⟩
  | cons r rs ih =>
    obtain ⟨low, high, wrap⟩ := h
    rw [List.length_cons] at high wrap
    obtain ⟨fresh, distinct⟩ := List.nodup_cons.mp distinct
    obtain ⟨ne, no⟩ : 13 ≠ r ∧ 13 ∉ rs := by
      rwa [List.mem_cons, not_or] at no
    have one : popInto host m r = (m.setReg 13 (m.cpu.regs 13 + 4#32)).setReg r
        (loadWord m.mem.bytes m.sp) := by
      simp only [popInto, v7mPop_ram host ⟨low, by omega, by omega⟩]
    have top : (popInto host m r).cpu.regs 13 = m.cpu.regs 13 + 4#32 := by
      exact (setReg_other _ _ ne).trans (setReg_same _ _ _)
    have sp : (popInto host m r).sp = m.sp + 4 := by
      unfold Machine.sp
      rw [top]
      exact add_toNat (by change m.sp + 4 < _; omega)
    have mem : (popInto host m r).mem = m.mem := by rw [one]; rfl
    have rest := ih ⟨by rw [mem]; omega, by rw [mem]; omega,
      by rw [sp]; omega⟩ distinct no
    refine ⟨?_, fun i q hq => ?_, fun q hq hrs => ?_, ?_, rest.mem.trans mem,
      rest.nvic.trans (by rw [one]; rfl)⟩
    · rw [List.foldl_cons, rest.sp, top, BitVec.add_assoc, List.length_cons, Nat.mul_add,
        Nat.add_comm (4 * rs.length), BitVec.ofNat_add]
    · rw [List.foldl_cons]
      cases i with
      | zero =>
        cases hq
        rw [rest.others r ne.symm fresh, one]
        exact setReg_same _ _ _
      | succ i =>
        rw [rest.words i q hq]
        congr 1
        omega
    · rw [List.mem_cons, not_or] at hrs
      rw [List.foldl_cons, rest.others q hq hrs.2]
      exact (setReg_other _ _ hrs.1).trans (setReg_other _ _ hq)
    · obtain ⟨regs, hregs⟩ := rest.rest
      refine ⟨regs, ?_⟩
      rw [List.foldl_cons, hregs]
      rfl

/-! ## The two stacks -/

variable (process : Bool)

/-- The process stack pointer or the main one, whichever holds it. -/
def Cpu.stack : BitVec 32 :=
  if c.currentSp = process then c.regs 13 else c.otherSp

theorem stack_inUse : c.stack c.currentSp = c.regs 13 := if_pos rfl

theorem stack_other : c.stack (!c.currentSp) = c.otherSp := if_neg (by simp)

theorem switchV7mSp_currentSp : (switchV7mSp c process).currentSp = process := by
  unfold switchV7mSp
  split
  · rfl
  · next same => exact not_not.mp same

theorem switchV7mSp_stack (process q : Bool) : (switchV7mSp c process).stack q = c.stack q := by
  unfold switchV7mSp Cpu.stack
  split
  · next ne =>
    have flipped : process = q ↔ ¬ c.currentSp = q := by
      revert ne
      cases c.currentSp <;> cases process <;> cases q <;> decide
    by_cases h : process = q
    · simp [h, flipped.mp h]
    · simp [h, not_not.mp (mt flipped.mpr h)]
  · rfl

theorem switchV7mSp_top : (switchV7mSp c process).regs 13 = c.stack process := by
  rw [← switchV7mSp_stack c process process, Cpu.stack, if_pos (switchV7mSp_currentSp c process)]

theorem switchV7mSp_regs (h : r ≠ 13) : (switchV7mSp c process).regs r = c.regs r := by
  unfold switchV7mSp
  split
  · exact setReg_other c _ h
  · rfl

theorem switchV7mSp_exception : (switchV7mSp c process).exception = c.exception := by
  unfold switchV7mSp
  split <;> rfl

/-! ## The return -/

/-- The frame of eight words at `base` is in RAM. -/
structure FrameInRam (mem : PhysMemory) (base : Nat) : Prop where
  low : mem.ramBase ≤ base
  high : base + 32 ≤ mem.ramBase + mem.ramSize
  wrap : base + 32 < 2 ^ 32

/-- The stack a return unstacks from. -/
def returnStack (m : Machine) : Bool := m.cpu.regs 15 &&& 4#32 ≠ 0#32

def returnBase (m : Machine) : Nat := (m.cpu.stack (returnStack m)).toNat

/-- The words of the frame at `base`. -/
def frameWord (mem : PhysMemory) (base j : Nat) : BitVec 32 := loadWord mem.bytes (base + 4 * j)

/-- `m'` is `m` after a return, apart from the NVIC. -/
structure Exited (m m' : Machine) : Prop where
  unstacked : ∀ j r, frameRegs[j]? = some r → m'.cpu.regs r = frameWord m.mem (returnBase m) j
  others : ∀ r, r ≠ 13 → r ∉ frameRegs → m'.cpu.regs r = m.cpu.regs r
  top : m'.cpu.regs 13 = if frameWord m.mem (returnBase m) 7 &&& 0x200#32 ≠ 0#32 then
    (m.cpu.stack (returnStack m) + 32#32) ||| 4#32 else m.cpu.stack (returnStack m) + 32#32
  currentSp : m'.cpu.currentSp = returnStack m
  otherSp : m'.cpu.otherSp = m.cpu.stack (!returnStack m)
  xpsr : xpsrRead m'.cpu = frameWord m.mem (returnBase m) 7 &&& xpsrBits
  exception : m'.cpu.exception = (frameWord m.mem (returnBase m) 7 &&& 0x1ff#32).toNat
  mem : m'.mem = m.mem
  nvic : m'.nvic = m.nvic

/-- The last word of a frame holds the xPSR; the alignment is undone. -/
theorem popXpsr_spec (host : Host) (h : RoomAbove m 1) :
    (popXpsr host m).cpu.regs 13 = (if loadWord m.mem.bytes m.sp &&& 0x200#32 ≠ 0#32 then
        (m.cpu.regs 13 + 4#32) ||| 4#32 else m.cpu.regs 13 + 4#32) ∧
      (∀ r, r ≠ 13 → (popXpsr host m).cpu.regs r = m.cpu.regs r) ∧
      (popXpsr host m).cpu.currentSp = m.cpu.currentSp ∧
      (popXpsr host m).cpu.otherSp = m.cpu.otherSp ∧
      xpsrRead (popXpsr host m).cpu = loadWord m.mem.bytes m.sp &&& xpsrBits ∧
      (popXpsr host m).cpu.exception = (loadWord m.mem.bytes m.sp &&& 0x1ff#32).toNat ∧
      (popXpsr host m).mem = m.mem ∧ (popXpsr host m).nvic = m.nvic := by
  have same := setReg_same m.cpu 13 (m.cpu.regs 13 + 4#32)
  have other : ∀ (v : BitVec 32) r, r ≠ 13 →
      (m.cpu.setReg 13 v).regs r = m.cpu.regs r := fun v r hr => setReg_other _ _ hr
  have written := xpsrRead_xpsrWrite (m.cpu.setReg 13 (m.cpu.regs 13 + 4#32))
    (loadWord m.mem.bytes m.sp)
  unfold popXpsr
  rw [v7mPop_ram host h]
  dsimp only
  split
  · refine ⟨?_, fun r hr => ?_, rfl, rfl, written, rfl, rfl, rfl⟩
    · exact (setReg_same _ _ _).trans (congrArg (· ||| 4#32) same)
    · exact (setReg_other _ _ hr).trans (other _ r hr)
  · exact ⟨same, fun r hr => other _ r hr, rfl, rfl, written, rfl, rfl, rfl⟩

theorem exited (host : Host) (h : FrameInRam m.mem (returnBase m)) : Exited m (exitCpu host m) := by
  obtain ⟨low, high, wrap⟩ := h
  let m₀ : Machine := { m with cpu := switchV7mSp m.cpu (returnStack m) }
  have sp₀ : m₀.sp = returnBase m := congrArg BitVec.toNat (switchV7mSp_top m.cpu (returnStack m))
  have room : RoomAbove m₀ 7 := by
    refine ⟨?_, ?_, ?_⟩ <;> rw [sp₀]
    · exact low
    · change returnBase m + 4 * 7 ≤ m.mem.ramBase + m.mem.ramSize
      omega
    · omega
  let m₁ : Machine := frameRegs.foldl (popInto host) m₀
  have pops : Popped m₀ frameRegs m₁ := popped host room (by decide) (by decide)
  have sp₁ : m₁.sp = returnBase m + 28 := by
    rw [← sp₀]
    unfold Machine.sp
    rw [pops.sp]
    exact add_toNat (by change m₀.sp + 28 < _; omega)
  have mem₁ : m₁.mem = m.mem := pops.mem
  have room₁ : RoomAbove m₁ 1 := ⟨by rw [mem₁]; omega, by rw [mem₁]; omega, by rw [sp₁]; omega⟩
  have word : loadWord m₁.mem.bytes m₁.sp = frameWord m.mem (returnBase m) 7 := by
    rw [sp₁]
    rfl
  have top : m₁.cpu.regs 13 + 4#32 = m.cpu.stack (returnStack m) + 32#32 := by
    rw [pops.sp, BitVec.add_assoc, ← switchV7mSp_top m.cpu (returnStack m)]
    rfl
  obtain ⟨values, hvalues⟩ := pops.rest
  have otherSp : m₁.cpu.otherSp = m.cpu.stack (!returnStack m) := by
    rw [hvalues, ← switchV7mSp_stack m.cpu (returnStack m), Cpu.stack, switchV7mSp_currentSp,
      if_neg (by simp)]
  obtain ⟨hsp, hregs, hcurrent, hother, hxpsr, hexception, hmem, hnvic⟩ := popXpsr_spec host room₁
  rw [word] at hsp hxpsr hexception
  rw [top] at hsp
  refine ⟨fun j r hj => ?_, fun r hr hmem => ?_, hsp, ?_, hother.trans otherSp, hxpsr, hexception,
    hmem.trans mem₁, hnvic.trans pops.nvic⟩
  · have ne : r ≠ 13 := by
      rintro rfl
      exact absurd (List.mem_of_getElem? hj) (by decide)
    refine (hregs r ne).trans ((pops.words j r hj).trans ?_)
    rw [sp₀]
    rfl
  · refine (hregs r hr).trans ((pops.others r hr hmem).trans ?_)
    exact switchV7mSp_regs m.cpu (returnStack m) hr
  · refine hcurrent.trans ?_
    exact switchV7mSp_currentSp m.cpu (returnStack m)

/-! ## The entry -/

/-- Whether the entry leaves out a word to align the stack. -/
def unaligned : Bool := c.regs 13 &&& 4#32 ≠ 0#32

/-- The end of the frame an entry pushes. -/
def frameTop : BitVec 32 := if unaligned c then c.regs 13 - 4#32 else c.regs 13

def frameBase : Nat := (frameTop c - 32#32).toNat

/-- The xPSR an entry pushes. -/
def stackedXpsr : BitVec 32 := xpsrRead c ||| (if unaligned c then 0x200#32 else 0#32)

/-- The frame an entry pushes is in RAM, and none of its addresses wraps around. -/
@[mk_iff]
structure EntryInRam (m : Machine) : Prop where
  wrap : 32 ≤ (frameTop m.cpu).toNat
  low : m.mem.ramBase ≤ (frameTop m.cpu).toNat - 32
  high : (frameTop m.cpu).toNat ≤ m.mem.ramBase + m.mem.ramSize

instance (m : Machine) : Decidable (EntryInRam m) :=
  decidable_of_iff' _ (entryInRam_iff m)

/-- `m'` is `m` after the entry to an exception. -/
structure Entered (m m' : Machine) : Prop where
  words : ∀ j r, frameRegs[j]? = some r → frameWord m'.mem (frameBase m.cpu) j = m.cpu.regs r
  xpsr : frameWord m'.mem (frameBase m.cpu) 7 = stackedXpsr m.cpu
  others : ∀ r, r ∉ [13, 14, 15] → m'.cpu.regs r = m.cpu.regs r
  lr : m'.cpu.regs 14 = excReturn m.cpu
  pushedOn : m'.cpu.stack m.cpu.currentSp = frameTop m.cpu - 32#32
  otherStack : m'.cpu.stack (!m.cpu.currentSp) = m.cpu.otherSp
  acknowledged : armv7mNvicAcknowledgeIrq m.nvic = .ok (m'.cpu.exception, m'.nvic)
  ramBase : m'.mem.ramBase = m.mem.ramBase
  ramSize : m'.mem.ramSize = m.mem.ramSize
  bytes : ∀ a, a < frameBase m.cpu ∨ frameBase m.cpu + 32 ≤ a → m'.mem.bytes a = m.mem.bytes a

theorem alignStack_eq (m : Machine) (xpsr : BitVec 32) :
    alignStack m xpsr = (m.setReg 13 (frameTop m.cpu),
      xpsr ||| (if unaligned m.cpu then 0x200#32 else 0#32)) := by
  unfold alignStack frameTop unaligned
  by_cases h : m.cpu.regs 13 &&& 4#32 ≠ 0#32
  · simp [h]
  · simp [not_not.mp h, Machine.setReg, setReg_self]

theorem frameBase_eq (room : EntryInRam m) :
    frameBase m.cpu = (frameTop m.cpu).toNat - 32 := sub_toNat room.wrap

/-- What is pushed, from the highest word of the frame. -/
def pushes (xpsr : BitVec 32) : List (BitVec 32) :=
  [xpsr ||| (if unaligned c then 0x200#32 else 0#32), c.regs 15, c.regs 14, c.regs 12, c.regs 3,
    c.regs 2, c.regs 1, c.regs 0]

theorem pushFrame_spec (room : EntryInRam m) (xpsr : BitVec 32) :
    Pushed (m.setReg 13 (frameTop m.cpu)) (pushes m.cpu xpsr) (pushFrame m xpsr) := by
  have top : (m.setReg 13 (frameTop m.cpu)).sp = (frameTop m.cpu).toNat :=
    congrArg BitVec.toNat (setReg_same _ _ _)
  obtain ⟨wrap, low, high⟩ := room
  unfold pushFrame
  rw [alignStack_eq]
  refine pushed ⟨?_, ?_, ?_⟩ <;> rw [top]
  · exact wrap
  · exact low
  · exact high

end

theorem startHandler_spec (host : Host) (m : Machine) (lr : BitVec 32) :
    (startHandler host m lr).cpu.regs 14 = lr ∧
      (∀ r, r ∉ [13, 14, 15] → (startHandler host m lr).cpu.regs r = m.cpu.regs r) ∧
      (∀ q, (startHandler host m lr).cpu.stack q = m.cpu.stack q) ∧
      (startHandler host m lr).cpu.exception = m.cpu.exception ∧
      (startHandler host m lr).mem = m.mem ∧ (startHandler host m lr).nvic = m.nvic := by
  unfold startHandler
  refine ⟨?_, fun r hr => ?_, fun q => ?_, switchV7mSp_exception m.cpu false, rfl, rfl⟩
  · rw [setReg_other _ _ (by decide), setReg_same]
  · simp only [List.mem_cons, List.not_mem_nil, or_false, not_or] at hr
    rw [setReg_other _ _ hr.2.2, setReg_other _ _ hr.2.1]
    exact switchV7mSp_regs m.cpu false hr.1
  · exact switchV7mSp_stack m.cpu false q

theorem entered (host : Host) {m' : Machine} (room : EntryInRam m)
    (h : doInterruptV7m host .irq m = .ok m') : Entered m m' := by
  obtain ⟨⟨exception, nvic⟩, ack, rest⟩ := bind_ok_iff.mp h
  let m₀ : Machine := { m with cpu := { m.cpu with exception := exception }, nvic := nvic }
  obtain rfl : startHandler host (pushFrame m₀ (xpsrRead m.cpu)) (excReturn m.cpu) = m' :=
    Except.ok.inj rest
  have room₀ : EntryInRam m₀ := ⟨room.wrap, room.low, room.high⟩
  have push := pushFrame_spec room₀ (xpsrRead m.cpu)
  have base := frameBase_eq room
  have wrap := room.wrap
  obtain ⟨lr, others, stack, number, mem, hnvic⟩ :=
    startHandler_spec host (pushFrame m₀ (xpsrRead m.cpu)) (excReturn m.cpu)
  have sp : (m₀.setReg 13 (frameTop m₀.cpu)).sp = (frameTop m.cpu).toNat :=
    congrArg BitVec.toNat (setReg_same _ _ _)
  -- the word pushed `i`-th is word `7 - i` of the frame
  have word : ∀ j v, j < 8 → (pushes m.cpu (xpsrRead m.cpu))[7 - j]? = some v →
      frameWord (pushFrame m₀ (xpsrRead m.cpu)).mem (frameBase m.cpu) j = v := by
    intro j v hj hv
    have loaded := push.words (7 - j) v hv
    unfold frameWord
    rwa [show frameBase m.cpu + 4 * j = (frameTop m.cpu).toNat - 4 * (7 - j + 1) by omega]
  refine ⟨fun j r hj => ?_, ?_, fun r hr => ?_, lr, ?_, ?_, ?_, ?_, ?_, fun a ha => ?_⟩
  · have hlt : j < 7 := (List.getElem?_eq_some_iff.mp hj).1
    rw [mem]
    refine word j _ (by omega) ?_
    interval_cases j <;> cases hj <;> rfl
  · rw [mem]
    exact word 7 _ (by decide) rfl
  · have ne : r ≠ 13 := fun h => hr (h ▸ List.mem_cons_self)
    rw [others r hr, push.cpu, setReg_other _ _ ne]
    exact setReg_other _ _ ne
  · rw [stack, push.cpu]
    refine (stack_inUse _).trans ((setReg_same _ _ _).trans ?_)
    exact congrArg (· - 32#32) (setReg_same _ _ _)
  · rw [stack, push.cpu]
    exact stack_other _
  · rw [number, hnvic, push.nvic, push.cpu]
    exact ack
  · exact push.ramBase
  · exact push.ramSize
  · rw [mem]
    refine push.others a ?_
    change a < (frameTop m.cpu).toNat - 32 ∨ _
    omega

/-! ## There and back -/

/-- What an interrupted program sees of the CPU. -/
structure Context where
  regs : Fin 16 → BitVec 32
  msp : BitVec 32
  psp : BitVec 32
  process : Bool
  xpsr : BitVec 32

def context (c : Cpu) : Context := ⟨c.regs, c.stack false, c.stack true, c.currentSp, xpsrRead c⟩

/-- What a handler entered at `m` has to bring back at `m'`, where it returns:
the registers it must save, both stack pointers, the frame at `base`, and in PC
the value it found in LR, with or without the Thumb bit. -/
@[mk_iff]
structure Restored (base : Nat) (m m' : Machine) : Prop where
  saved : ∀ r : Fin 16, 4 ≤ r → r ≤ 11 → m'.cpu.regs r = m.cpu.regs r
  pointers : ∀ q, m'.cpu.stack q = m.cpu.stack q
  frame : Agree m'.mem.bytes m.mem.bytes base (base + 32)
  ramBase : m'.mem.ramBase = m.mem.ramBase
  ramSize : m'.mem.ramSize = m.mem.ramSize
  pc : m'.cpu.regs 15 = m.cpu.regs 14 ∨ m'.cpu.regs 15 = m.cpu.regs 14 &&& ~~~1#32

instance (base : Nat) (m m' : Machine) : Decidable (Restored base m m') :=
  decidable_of_iff' _ (restored_iff base m m')

theorem excReturn_stack (c : Cpu) :
    decide (excReturn c &&& 4#32 ≠ 0#32) = c.currentSp ∧
      decide ((excReturn c &&& ~~~1#32) &&& 4#32 ≠ 0#32) = c.currentSp := by
  unfold excReturn
  by_cases thread : c.exception = 0 <;> cases c.currentSp <;> simp [thread]

theorem Entered.returnStack (entry : Entered m m₁) {base : Nat} (handler : Restored base m₁ m₂) :
    returnStack m₂ = m.cpu.currentSp := by
  unfold V7m.returnStack
  obtain pc | pc := handler.pc <;> rw [pc, entry.lr]
  · exact (excReturn_stack m.cpu).1
  · exact (excReturn_stack m.cpu).2

theorem frameTop_realigned (c : Cpu) :
    (if unaligned c then frameTop c ||| 4#32 else frameTop c) = c.regs 13 := by
  unfold frameTop
  cases h : unaligned c with
  | false => simp
  | true =>
    have set : (c.regs 13).getLsbD 2 = true :=
      (Bits.and_bit_ne_zero (c.regs 13) (by decide)).mp (of_decide_eq_true h)
    generalize c.regs 13 = x at *
    -- `x` is its other bits plus 4
    have whole : (x &&& ~~~4#32) ||| 4#32 = x := by
      apply BitVec.eq_of_getLsbD_eq
      intro i hi
      have four : (4#32) = 1#32 <<< 2 := rfl
      rw [BitVec.getLsbD_or, BitVec.getLsbD_and, BitVec.getLsbD_not, four, BitVec.getLsbD_shiftLeft]
      grind
    have apart : (x &&& ~~~4#32) &&& 4#32 = 0#32 := by
      rw [BitVec.and_assoc]
      simp
    nth_rewrite 1 [← whole]
    rw [← BitVec.add_eq_or_of_and_eq_zero _ _ apart, BitVec.add_sub_cancel]
    exact whole

/-- Whatever the NVIC does in between, the CPU comes back to where it was. -/
theorem exitCpu_restores (host : Host) (number : m.cpu.exception < 512) (room : EntryInRam m)
    (taken : doInterruptV7m host .irq m = .ok m₁) (handler : Restored (frameBase m.cpu) m₁ m₂) :
    context (exitCpu host m₂).cpu = context m.cpu := by
  have entry := entered host room taken
  have stack : m₂.cpu.stack (returnStack m₂) = frameTop m.cpu - 32#32 := by
    rw [entry.returnStack handler, handler.pointers, entry.pushedOn]
  have base : returnBase m₂ = frameBase m.cpu := congrArg BitVec.toNat stack
  have word : ∀ j, j < 8 →
      frameWord m₂.mem (returnBase m₂) j = frameWord m₁.mem (frameBase m.cpu) j := by
    intro j hj
    rw [base]
    exact handler.frame.loadWord (by omega) (by omega)
  have exit : Exited m₂ (exitCpu host m₂) := by
    refine exited host ⟨?_, ?_, ?_⟩ <;> rw [base, frameBase_eq room]
    · rw [handler.ramBase, entry.ramBase]
      exact room.low
    · rw [handler.ramBase, handler.ramSize, entry.ramBase, entry.ramSize]
      have := room.wrap
      have := room.high
      omega
    · omega
  have top : (exitCpu host m₂).cpu.regs 13 = m.cpu.regs 13 := by
    rw [exit.top, stack, word 7 (by decide), entry.xpsr, BitVec.sub_add_cancel]
    rw [← frameTop_realigned m.cpu]
    congr 1
    exact propext (xpsrRead_aligned number _)
  have current : (exitCpu host m₂).cpu.currentSp = m.cpu.currentSp :=
    exit.currentSp.trans (entry.returnStack handler)
  have other : (exitCpu host m₂).cpu.otherSp = m.cpu.otherSp := by
    rw [exit.otherSp, entry.returnStack handler, handler.pointers, entry.otherStack]
  have regs : (exitCpu host m₂).cpu.regs = m.cpu.regs := by
    funext r
    by_cases sp : r = 13
    · rw [sp, top]
    by_cases stacked : r ∈ frameRegs
    · obtain ⟨j, hj⟩ := List.mem_iff_getElem?.mp stacked
      have hlt : j < 7 := (List.getElem?_eq_some_iff.mp hj).1
      rw [exit.unstacked j r hj, word j (by omega), entry.words j r hj]
    · have : 4 ≤ r ∧ r ≤ 11 ∧ r ∉ [13, 14, 15] := by
        revert r
        decide
      rw [exit.others r sp stacked, handler.saved r this.1 this.2.1, entry.others r this.2.2]
  have xpsr : xpsrRead (exitCpu host m₂).cpu = xpsrRead m.cpu := by
    rw [exit.xpsr, word 7 (by decide), entry.xpsr]
    exact xpsrRead_kept number _
  unfold context Cpu.stack
  rw [regs, current, other, xpsr]

end QemuStm32.V7m
