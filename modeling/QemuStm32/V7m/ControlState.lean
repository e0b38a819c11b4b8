import QemuStm32.V7m.Nesting

/-!
# The Interrupt Control State register

What the guest reads at offset 0xd04 of the NVIC, against the exceptions that were acknowledged and
not yet completed.
-/

namespace QemuStm32.V7m

open Runs Nvic Gic Linked BitVec List

/-- The NVIC with the vectors acknowledged and not yet completed, the last one first. -/
structure Traced where
  nvic : NvicState
  active : List Nat

def tracedStep (scale : Int) (s : Traced) : NvicEvent → Except Fault Traced
  | .acknowledge => do
    let (irq, nvic) ← armv7mNvicAcknowledgeIrq s.nvic
    .ok ⟨nvic, irq :: s.active⟩
  | .complete irq => do
    let nvic ← armv7mNvicCompleteIrq s.nvic irq
    .ok ⟨nvic, s.active.erase irq⟩
  | e => do
    let nvic ← nvicStep scale s.nvic e
    .ok { s with nvic := nvic }

/-! ## The fields -/

def vectactive (icsr : BitVec 32) : BitVec 9 := icsr.extractLsb' 0 9
def rettobase (icsr : BitVec 32) : Bool := icsr.getLsbD 11
def vectpending (icsr : BitVec 32) : BitVec 9 := icsr.extractLsb' 12 9

variable {i irq : Nat} {s : Traced} {nvic : NvicState}

theorem getLsbD_flags (tests : List (Bool × Nat)) (hi : i < 32) :
    (flags tests).getLsbD i = tests.any fun t => t.1 && i == t.2 := by
  have folded (val : BitVec 32) : (tests.foldl (fun val t => if t.1 then val ||| (1#32 <<< t.2)
      else val) val).getLsbD i = (val.getLsbD i || tests.any fun t => t.1 && i == t.2) := by
    induction tests generalizing val with
    | nil => simp
    | cons t tests ih =>
      rw [foldl_cons, ih, any_cons, ← twoPow_eq, ← Bool.or_assoc]
      cases t.1 <;> simp [hi, Bool.beq_eq_decide_eq]
  exact (folded 0).trans (by simp)

/-- The bits of the register. -/
theorem getLsbD_readControlState (g : State armv7m) (hi : i < 32) :
    (readControlState g).getLsbD i =
      ((vector (g.runningIrq 0)).testBit i ||
        (i == 11 && decide (g.runningIrq 0 = 1023 ∨ g.next 0 (g.runningIrq 0) = 1023)) ||
        (decide (12 ≤ i) && (if g.currentPending 0 = 1023 then 0
          else g.currentPending 0).testBit (i - 12)) ||
        (flags
          [((List.range' 32 (armv7m.nirq - 32)).any fun irq => (g.irqState irq).pending ≠ 0, 22),
          ((g.irqState excpSystick).pending ≠ 0, 26), ((g.irqState excpPendsv).pending ≠ 0, 28),
          ((g.irqState excpNmi).pending ≠ 0, 31)]).getLsbD i) := by
  have shifted n : (BitVec.ofNat 32 n <<< 12).getLsbD i =
      (decide (12 ≤ i) && n.testBit (i - 12)) := by
    rw [getLsbD_shiftLeft, getLsbD_ofNat]
    grind
  have low n : (BitVec.ofNat 32 n).getLsbD i = n.testBit i := by
    rw [getLsbD_ofNat, decide_eq_true hi, Bool.true_and]
  unfold readControlState
  rw [getLsbD_or]
  congr 1
  have active : (BitVec.ofNat 32 (vector (g.runningIrq 0)) ||| flags
      [(decide (g.runningIrq 0 = 1023 ∨ g.lastActive (g.runningIrq 0) 0 = 1023), 11)]).getLsbD i =
      ((vector (g.runningIrq 0)).testBit i ||
        (i == 11 && decide (g.runningIrq 0 = 1023 ∨ g.next 0 (g.runningIrq 0) = 1023))) := by
    rw [getLsbD_or, low, getLsbD_flags _ hi, any_cons, any_nil, Bool.or_false,
      Bool.and_comm (i == 11)]
    rfl
  by_cases none : g.currentPending 0 = 1023
  · rw [if_neg (not_not_intro none), if_pos none, Nat.zero_testBit, Bool.and_false, Bool.or_false]
    exact active
  · rw [if_pos none, if_neg none, getLsbD_or, shifted]
    exact congrArg (· || _) active


theorem readControlState_fields {g : State armv7m} (sound : Nvic.Sound g) :
    vectactive (readControlState g) = BitVec.ofNat 9 (vector (g.runningIrq 0)) ∧
      (rettobase (readControlState g) = true ↔
        g.runningIrq 0 = 1023 ∨ g.next 0 (g.runningIrq 0) = 1023) ∧
      vectpending (readControlState g) =
        BitVec.ofNat 9 (if g.currentPending 0 = 1023 then 0 else g.currentPending 0) := by
  have small := vector_lt (sound.inRange.running 0)
  have above {i : Nat} (hi : 9 ≤ i) : (vector (g.runningIrq 0)).testBit i = false :=
    Nat.testBit_lt_two_pow (small.trans_le (Nat.pow_le_pow_right (n := 2) (by decide) hi))
  refine ⟨eq_of_getLsbD_eq fun i hi => ?_, ?_, eq_of_getLsbD_eq fun i hi => ?_⟩
  · rw [vectactive, getLsbD_extractLsb', getLsbD_readControlState g (by omega),
      getLsbD_flags _ (by omega), getLsbD_ofNat]
    interval_cases i <;> simp
  · rw [rettobase, getLsbD_readControlState g (by decide), getLsbD_flags _ (by decide),
      above (by decide)]
    simp
  · rw [vectpending, getLsbD_extractLsb', getLsbD_readControlState g (by omega),
      getLsbD_flags _ (by omega), getLsbD_ofNat, above (by omega)]
    interval_cases i <;> simp

/-! ## The list of active exceptions -/

/-- The NVIC's list of active interrupts is the list of active exceptions. -/
def InTrace (s : Traced) : Prop :=
  ∃ l, Chain (s.nvic.gic.next 0) 1023 (s.nvic.gic.runningIrq 0) l ∧ l.map vector = s.active

def isAcknowledge : NvicEvent → Bool
  | .acknowledge => true
  | _ => false

/-- An acknowledge takes no interrupt that is active. -/
def TakesFresh (s : Traced) (e : NvicEvent) : Prop :=
  isAcknowledge e = true → s.nvic.gic.currentPending 0 ∉ activeIrqs s.nvic.gic 0

instance (s : Traced) (e : NvicEvent) : Decidable (TakesFresh s e) :=
  inferInstanceAs (Decidable (_ → _))

/-- The register agrees with the exceptions. -/
structure Shows (s : Traced) : Prop where
  active : vectactive (readControlState s.nvic.gic) = BitVec.ofNat 9 (s.active.headD 0)
  base : rettobase (readControlState s.nvic.gic) = true ↔ s.active.length ≤ 1
  pending : vectpending (readControlState s.nvic.gic) =
    BitVec.ofNat 9 (vector (s.nvic.gic.currentPending 0))

/-- No exception, or one with the same number inside and outside, is the next to be taken. -/
def Internal (s : Traced) : Prop :=
  s.nvic.gic.currentPending 0 = 1023 ∨ s.nvic.gic.currentPending 0 < 32

theorem shows_iff (sound : Nvic.Sound s.nvic.gic) (trace : InTrace s) : Shows s ↔ Internal s := by
  obtain ⟨l, chain, mapped⟩ := trace
  obtain ⟨active, base, pending⟩ := readControlState_fields sound
  have top : vector (s.nvic.gic.runningIrq 0) = s.active.headD 0 := by
    rw [← mapped]
    generalize s.nvic.gic.runningIrq 0 = a at chain
    cases chain <;> rfl
  have length : s.nvic.gic.runningIrq 0 = 1023 ∨
      s.nvic.gic.next 0 (s.nvic.gic.runningIrq 0) = 1023 ↔ s.active.length ≤ 1 := by
    rw [← mapped]
    generalize s.nvic.gic.runningIrq 0 = a at chain
    cases chain with
    | nil => simp
    | @cons _ l ne rest =>
      by_cases last : s.nvic.gic.next 0 a = 1023
      · obtain rfl : l = [] := (last ▸ rest).unique .nil
        simp [last]
      · obtain ⟨r, rfl, -⟩ := rest.tail last
        simp [ne, last]
  have number : BitVec.ofNat 9 (if s.nvic.gic.currentPending 0 = 1023 then 0
      else s.nvic.gic.currentPending 0) = BitVec.ofNat 9 (vector (s.nvic.gic.currentPending 0)) ↔
      Internal s := by
    unfold Internal vector
    rw [← toNat_inj, toNat_ofNat, toNat_ofNat]
    split
    · exact iff_of_true rfl (.inl ‹_›)
    · split <;> omega
  exact ⟨fun shows => number.mp (pending.symm.trans shows.pending),
    fun internal => ⟨active.trans (congrArg _ top), base.trans length,
      pending.trans (number.mpr internal)⟩⟩

/-- Taking a number off the list, in the numbering of the NVIC or in that of the CPU. -/
theorem map_vector_erase {l : List Nat} (same : ∀ i ∈ l, i = internalIrq irq ↔ vector i = irq) :
    (l.erase (internalIrq irq)).map vector = (l.map vector).erase irq := by
  induction l with
  | nil => rfl
  | cons a l ih =>
    have rest := ih fun i hi => same i (.tail _ hi)
    have head := same a mem_cons_self
    rw [map_cons, erase_cons, erase_cons]
    by_cases hit : a = internalIrq irq
    · rw [if_pos (beq_iff_eq.mpr hit), if_pos (beq_iff_eq.mpr (head.mp hit))]
    · rw [if_neg (mt beq_iff_eq.mp hit), if_neg (mt (head.mpr ∘ beq_iff_eq.mp) hit), map_cons, rest]

theorem acknowledge_inTrace (sound : Nvic.Sound s.nvic.gic) (trace : InTrace s)
    (fresh : s.nvic.gic.currentPending 0 ∉ activeIrqs s.nvic.gic 0)
    (h : armv7mNvicAcknowledgeIrq s.nvic = .ok (irq, nvic)) : InTrace ⟨nvic, irq :: s.active⟩ := by
  obtain ⟨l, chain, mapped⟩ := trace
  obtain ⟨number, taken, after⟩ := acknowledge_spec h
  obtain ⟨next, running⟩ := gicAcknowledgeIrq_pushes taken
  have lt : ∀ i ∈ l, i < armv7m.nirq :=
    chain.all (sound.inRange.running 0) fun i _ => sound.inRange.links 0 i
  rw [activeIrqs_eq chain lt] at fresh
  rw [← after] at next running
  refine ⟨_ :: l, ?_, congrArg₂ List.cons number.symm mapped⟩
  rw [next, running]
  exact chain.push taken.1 fresh

theorem complete_inTrace (sound : Nvic.Sound s.nvic.gic) (trace : InTrace s)
    (h : armv7mNvicCompleteIrq s.nvic irq = .ok nvic) : InTrace ⟨nvic, s.active.erase irq⟩ := by
  obtain ⟨l, chain, mapped⟩ := trace
  obtain ⟨g, hg, h⟩ := bind_ok_iff.mp h
  cases h
  have lt : ∀ i ∈ l, i < armv7m.nirq :=
    chain.all (sound.inRange.running 0) fun i _ => sound.inRange.links 0 i
  have exist : ∀ i ∈ l, OnNvic i := chain.all (.inr sound.running) fun i _ => .inr (sound.links i)
  refine ⟨_, gicCompleteIrq_erases chain lt hg, ?_⟩
  rw [map_vector_erase fun i hi => ?_, mapped]
  have active : i ≠ 1023 := fun idle => chain.stop_notMem (idle ▸ hi)
  constructor
  · intro hit
    unfold internalIrq at hit
    unfold vector
    rw [if_neg active]
    split at hit <;> split <;> omega
  · rintro rfl
    exact (internalIrq_vector (exist i hi) active).symm

/-- What holds before and after every step. -/
def Tracks (s : Traced) : Prop := Nvic.Sound s.nvic.gic ∧ InTrace s

theorem quiet_tracks (h : Tracks s) (quiet : Quiet s.nvic.gic nvic.gic) :
    Tracks { s with nvic := nvic } := by
  obtain ⟨sound, l, chain, mapped⟩ := h
  refine ⟨sound.quiet quiet, l, ?_, mapped⟩
  have next : nvic.gic.next 0 = s.nvic.gic.next 0 := by
    unfold State.next
    rw [quiet.lastActive]
  rw [next, quiet.runningIrq]
  exact chain

theorem tracedStep_tracks {scale : Int} (s : Traced) (e : NvicEvent) (t : Traced) (h : Tracks s)
    (fresh : TakesFresh s e) (ht : tracedStep scale s e = .ok t) : Tracks t := by
  cases e with
  | acknowledge =>
    obtain ⟨⟨irq, nvic⟩, ack, ht⟩ := bind_ok_iff.mp ht
    cases ht
    refine ⟨?_, acknowledge_inTrace h.1 h.2 (fresh rfl) ack⟩
    rw [(acknowledge_spec ack).2.2]
    exact gicAcknowledgeIrq_sound h.1
  | complete irq =>
    obtain ⟨nvic, complete, ht⟩ := bind_ok_iff.mp ht
    cases ht
    obtain ⟨g, hg, done⟩ := bind_ok_iff.mp complete
    refine ⟨?_, complete_inTrace h.1 h.2 complete⟩
    cases done
    exact gicCompleteIrq_sound h.1 hg
  | _ =>
    obtain ⟨nvic, stepped, ht⟩ := bind_ok_iff.mp ht
    cases ht
    exact quiet_tracks h (nvicStep_quiet rfl stepped)

/-- In every run in which no acknowledge takes an interrupt that is still active, the register
agrees with the exceptions exactly where no external interrupt is the next to be taken. -/
theorem controlState_shows_iff (scale : Int) (cpuid : BitVec 32) (now : Nat)
    (events : List NvicEvent)
    (fresh : StepsMeet (tracedStep scale) TakesFresh ⟨.start cpuid now, []⟩ events) :
    Always (tracedStep scale) (fun s =>
      nvicDistReadl scale s.nvic 0xd04 = .ok (readControlState s.nvic.gic, s.nvic) ∧
        (Shows s ↔ Internal s)) ⟨.start cpuid now, []⟩ events := by
  have start : Tracks ⟨.start cpuid now, []⟩ := ⟨gicInit_sound, [], .nil, rfl⟩
  exact (always_of_stepsMeet tracedStep_tracks start fresh).mono fun s h =>
    ⟨rfl, shows_iff h.1 h.2⟩

/-- PendSV is pended and acknowledged. -/
def pendsvActive : List NvicEvent := [.writel 0xd04 0x10000000#32, .acknowledge]

theorem pendsv_shown : ∃ t, run (tracedStep 1) ⟨.start 0 0, []⟩ pendsvActive = .ok t ∧
    t.active = [14] ∧ Internal t ∧ Shows t := by
  have fresh : StepsMeet (tracedStep 1) TakesFresh ⟨.start 0 0, []⟩ pendsvActive := by
    decide +kernel
  obtain ⟨t, ran, seen⟩ := exists_of_observed
    (x := run (tracedStep 1) ⟨.start 0 0, []⟩ pendsvActive)
    (f := fun t => (t.active, t.nvic.gic.currentPending 0)) (b := ([14], 1023)) (by decide +kernel)
  obtain ⟨active, none⟩ := Prod.mk.inj seen
  have shows := ((controlState_shows_iff 1 0 0 pendsvActive fresh).final ran).2
  exact ⟨t, ran, active, .inl none, shows.mpr (.inl none)⟩

/-- The first external interrupt, number 16 of the CPU, is shown as number 32. -/
theorem external_pending_shifted :
    ∃ t, run (tracedStep 1) ⟨.start 0 0, []⟩ [.writel 0x100 1#32, .writel 0x200 1#32] = .ok t ∧
      vector (t.nvic.gic.currentPending 0) = 16 ∧
      vectpending (readControlState t.nvic.gic) = 32#9 ∧ ¬ Shows t := by
  obtain ⟨t, ran, seen⟩ := exists_of_observed
    (x := run (tracedStep 1) ⟨.start 0 0, []⟩ [.writel 0x100 1#32, .writel 0x200 1#32])
    (f := fun t =>
      (vector (t.nvic.gic.currentPending 0), vectpending (readControlState t.nvic.gic)))
    (b := (16, 32#9)) (by decide +kernel)
  obtain ⟨number, field⟩ := Prod.mk.inj seen
  refine ⟨t, ran, number, field, fun shows => ?_⟩
  have same := shows.pending
  rw [number, field] at same
  exact absurd same (by decide)

end QemuStm32.V7m
