import QemuStm32.Gic.Update

/-!
# Bytes that describe several interrupts

A byte of a distributor register holds bits of four or eight interrupts, and
its loop treats them one by one (`modifyLoop`). Two loops do not treat each
interrupt by what belongs to it:

* the read of a configuration byte starts at another interrupt than the write
  (`configuration_reads_back_iff`);
* set-pending and set-enable take the targets of the first interrupt of the byte
  for all eight (`own_targets_iff`).
-/

namespace QemuStm32.Gic

open BitVec List Runs

section
variable {c : Config}

@[simp] theorem gicUpdate_irqState (s : State c) : (gicUpdate s).irqState = s.irqState := by
  rw [gicUpdate_frame]

variable {α : Type} {s t : State c} {irq n k i : Nat} {f : State c → Nat → State c}
  {q : IrqState n}

theorem set_self (f : Nat → α) (i : Nat) : set f i (f i) = f := by
  funext j
  by_cases h : j = i
  · rw [h, set_same]
  · rw [set_other f _ h]

theorem modify_id (s : State c) (irq : Nat) : s.modify irq id = s := by
  unfold State.modify
  rw [id, set_self]

theorem modify_modify (s : State c) (irq : Nat) (f g : IrqState c.ncpu → IrqState c.ncpu) :
    (s.modify irq f).modify irq g = s.modify irq fun q => g (f q) := by
  unfold State.modify
  dsimp only
  rw [set_same, set_set]

/-- A loop that changes interrupt `irq + i` in round `i`, by a rule that may use the
targets. -/
theorem modifyLoop {g : Nat → IrqState c.ncpu → IrqState c.ncpu}
    (body : ∀ t i, t.irqTarget = s.irqTarget → f t i = t.modify (irq + i) (g i)) :
    (List.range n).foldl f s = { s with
      irqState := fun j =>
        if irq ≤ j ∧ j < irq + n then g (j - irq) (s.irqState j) else s.irqState j } := by
  induction n with
  | zero =>
    have none : ∀ j, ¬ (irq ≤ j ∧ j < irq + 0) := by omega
    simp only [range_zero, foldl_nil, none, if_false]
  | succ n ih =>
    rw [range_succ, foldl_append, ih, foldl_cons, foldl_nil, body]
    · unfold State.modify
      congr 1
      funext j
      dsimp only
      by_cases here : j = irq + n
      · rw [here, set_same, if_neg (by omega), if_pos (by omega), Nat.add_sub_cancel_left]
      · rw [set_other _ _ here]
        exact if_congr (by omega) rfl rfl
    · rfl

/-! ## Configuration -/

section
variable (s : State c)

/-- The model and trigger bit of an interrupt, and those at place `i` of a byte. -/
def configuration (irq : Nat) : Bool × Bool :=
  ((s.irqState irq).model, (s.irqState irq).trigger)

def bitPair {w : Nat} (value : BitVec w) (i : Nat) : Bool × Bool :=
  (value.getLsbD (i * 2), value.getLsbD (i * 2 + 1))

/-- A configuration byte as it is stored: private interrupts are edge triggered. -/
def storedByte (k : Nat) (value : BitVec 8) : BitVec 8 :=
  if k * 4 < 32 then value ||| 0xaa#8 else value

theorem setConfiguration_eq (irq : Nat) (value : BitVec 32) (s : State c) (i : Nat) :
    setConfiguration irq value s i = s.modify (irq + i) fun q =>
      { q with model := value.getLsbD (i * 2), trigger := value.getLsbD (i * 2 + 1) } := by
  unfold setConfiguration gicSetTrigger gicSetModel
  rw [modify_modify]

theorem storedByte_setWidth (k : Nat) (value : BitVec 8) :
    (storedByte k value).setWidth 32 =
      if k * 4 < 32 then value.setWidth 32 ||| 0xaa#32 else value.setWidth 32 := by
  unfold storedByte
  split
  · exact setWidth_or
  · rfl

/-- The write of byte `k` of the configuration registers goes to the interrupts from
`k * 4` on. -/
theorem configurationWrite (cpu : Nat) (value : BitVec 8) (nvic : c.nvic = false)
    (small : k < 0x100) : gicDistWriteb s cpu (0xc00 + k) (value.setWidth 32) =
      if k * 4 ≥ c.nirq then badWrite (0xc00 + k) else .ok (gicUpdate ((List.range 4).foldl
        (setConfiguration (k * 4) ((storedByte k value).setWidth 32)) s)) := by
  unfold gicDistWriteb writeRegister
  iterate 7 rw [if_neg (by omega)]
  have offset : 0xc00 + k - 0xc00 = k := by omega
  simp only [nvic, Bool.not_false, Bool.true_and, decide_eq_true_eq, baseIrq,
    Bool.false_eq_true, if_false, offset, Nat.add_zero, storedByte_setWidth]
  rw [if_neg (by omega), if_pos (by omega)]
  split <;> rfl

theorem configurationWrite_nvic (cpu : Nat) (value : BitVec 32)
    (nvic : c.nvic = true) : gicDistWriteb s cpu (0xc00 + k) value = badWrite (0xc00 + k) := by
  unfold gicDistWriteb writeRegister
  iterate 7 rw [if_neg (by omega)]
  simp only [nvic, Bool.not_true, Bool.false_and, Bool.false_eq_true, if_false]
  rfl

theorem configured (k : Nat) (value : BitVec 8) (j : Nat) :
    configuration (gicUpdate ((List.range 4).foldl
        (setConfiguration (k * 4) ((storedByte k value).setWidth 32)) s)) j =
      if k * 4 ≤ j ∧ j < k * 4 + 4 then bitPair (storedByte k value) (j - k * 4)
      else configuration s j := by
  unfold configuration
  rw [gicUpdate_irqState, modifyLoop fun t i _ => setConfiguration_eq _ _ t i]
  dsimp only
  by_cases here : k * 4 ≤ j ∧ j < k * 4 + 4
  · rw [if_pos here, if_pos here]
    rfl
  · rw [if_neg here, if_neg here]

theorem collect_getLsbD (n : Nat) (place : Nat → Nat) (p : Nat → Bool) (j : Nat) :
    (collect n place p).getLsbD j =
      (decide (j < 32) && (List.range n).any fun i => p i && decide (j = place i)) := by
  unfold collect
  induction n with
  | zero => simp
  | succ n ih =>
    rw [range_succ, foldl_append, any_append, Bool.and_or_distrib_left, ← ih, foldl_cons, foldl_nil]
    cases hp : p n
    · simp [hp]
    · rw [if_pos rfl, Bits.or_bit]
      simp [hp]

/-- The byte that shows the configuration of four interrupts from `irq` on. -/
def configurationByte (irq : Nat) : BitVec 32 :=
  collect 4 (· * 2) (fun i => (s.irqState (irq + i)).model) |||
    collect 4 (· * 2 + 1) fun i => (s.irqState (irq + i)).trigger

theorem configurationByte_bits (irq : Nat) (small : i < 4) :
    bitPair (configurationByte s irq) i = configuration s (irq + i) := by
  unfold bitPair configurationByte configuration
  simp only [getLsbD_or, collect_getLsbD]
  obtain rfl | rfl | rfl | rfl : i = 0 ∨ i = 1 ∨ i = 2 ∨ i = 3 := by omega
  all_goals simp [range_succ]

end

theorem collect_congr {place : Nat → Nat} {p q : Nat → Bool} (same : ∀ i < n, p i = q i) :
    collect n place p = collect n place q :=
  foldl_ext _ _ _ fun _ i hi => by rw [same i (mem_range.mp hi)]

theorem configurationByte_eq_iff :
    configurationByte t irq = configurationByte s irq ↔
      ∀ i < 4, configuration t (irq + i) = configuration s (irq + i) := by
  constructor
  · intro same i small
    rw [← configurationByte_bits t irq small, same, configurationByte_bits s irq small]
  · intro same
    unfold configurationByte
    rw [collect_congr fun i small => (Prod.mk.inj (same i small)).1,
      collect_congr fun i small => (Prod.mk.inj (same i small)).2]

/-- The read of byte `k` is of the interrupts from `k * 2` on. -/
theorem configurationRead (s : State c) (cpu : Nat) (nvic : c.nvic = false) (small : k < 0x300) :
    gicDistReadb s cpu (0xc00 + k) =
      if k * 2 ≥ c.nirq then badRead (0xc00 + k)
      else if k * 2 + 3 ≥ c.nirq then .error (.outOfBounds "irq_state" c.nirq)
      else .ok (configurationByte s (k * 2)) := by
  unfold gicDistReadb
  iterate 5 rw [if_neg (by omega)]
  have offset : 0xc00 + k - 0xc00 = k := by omega
  simp only [nvic, Bool.not_false, Bool.true_and, decide_eq_true_eq, baseIrq,
    Bool.false_eq_true, if_false, offset, Nat.add_zero]
  rw [if_neg (by omega), if_pos (by omega)]
  rfl

theorem configurationRead_eq_iff (reader : Nat) {l : Nat} (nvic : c.nvic = false)
    (small : l < 0x100) :
    gicDistReadb t reader (0xc00 + l) = gicDistReadb s reader (0xc00 + l) ↔
      (l * 2 + 3 < c.nirq →
        ∀ i < 4, configuration t (l * 2 + i) = configuration s (l * 2 + i)) := by
  rw [configurationRead t reader nvic (by omega), configurationRead s reader nvic (by omega),
    ← configurationByte_eq_iff]
  by_cases inside : l * 2 + 3 < c.nirq
  · rw [if_neg (by omega), if_neg (by omega), if_neg (by omega), if_neg (by omega)]
    exact ⟨fun same _ => Except.ok.inj same, fun same => congrArg _ (same inside)⟩
  · refine ⟨fun _ below => absurd below inside, fun _ => ?_⟩
    split
    · rfl
    · rw [if_pos (by omega), if_pos (by omega)]

/-- A write at four interrupts a byte and reads at two: which of the old values `f` and of
the values `w` that are written keep all reads but one and let that one show `v`. -/
theorem scalings_agree_iff {f g v w : Nat → α}
    (written : ∀ j, g j = if k * 4 ≤ j ∧ j < k * 4 + 4 then w (j - k * 4) else f j)
    (inside : k * 4 + 4 ≤ n) (some : 5 < n) :
    ((∀ i < 4, g (k * 2 + i) = v i) ∧
      ∀ l < 0x100, l ≠ k → l * 2 + 3 < n → ∀ i < 4, g (l * 2 + i) = f (l * 2 + i)) ↔
    (k = 0 → (∀ i < 4, w i = v i) ∧ f 2 = v 2 ∧ f 3 = v 3) ∧
      (k ≠ 0 → (∀ i < 4, f (k * 2 + i) = v i) ∧
        ∀ i < 4, k * 4 + i < 514 → f (k * 4 + i) = w i) := by
  have new : ∀ i < 4, g (k * 4 + i) = w i := by
    intro i small
    rw [written, if_pos (by omega), Nat.add_sub_cancel_left]
  have old : ∀ j, ¬ (k * 4 ≤ j ∧ j < k * 4 + 4) → g j = f j := by
    intro j outside
    rw [written, if_neg outside]
  have unchanged : (∀ i < 4, k * 4 + i < 514 → f (k * 4 + i) = w i) → ∀ j < 514, g j = f j := by
    intro shown j visible
    by_cases here : k * 4 ≤ j ∧ j < k * 4 + 4
    · obtain ⟨d, below, rfl⟩ : ∃ d < 4, j = k * 4 + d := ⟨j - k * 4, by omega, by omega⟩
      rw [new d below, shown d below visible]
    · exact old j here
  have near : (∀ i < 4, k * 4 + i < 514 → f (k * 4 + i) = w i) →
      ∀ i < 4, g (k * 2 + i) = f (k * 2 + i) := by
    intro shown i small
    by_cases visible : k * 2 + i < 514
    · exact unchanged shown _ visible
    · exact old _ (by omega)
  constructor
  · rintro ⟨back, kept⟩
    refine ⟨?_, fun later => ?_⟩
    · rintro rfl
      have same : ∀ i < 4, w i = v i := by
        intro i small
        rw [← new i small, ← back i small]
      -- byte 1 shows interrupts 2 and 3 too
      have two := kept 1 (by omega) (by omega) (by omega) 0 (by omega)
      have three := kept 1 (by omega) (by omega) (by omega) 1 (by omega)
      exact ⟨same, by rw [← same 2 (by omega), ← new 2 (by omega)]; exact two.symm,
        by rw [← same 3 (by omega), ← new 3 (by omega)]; exact three.symm⟩
    · have shown : ∀ i < 4, k * 4 + i < 514 → f (k * 4 + i) = w i := by
        intro i small visible
        by_cases early : k < 128
        · have same := kept (k * 2) (by omega) (by omega) (by omega) i small
          rw [show k * 2 * 2 + i = k * 4 + i by omega, new i small] at same
          exact same.symm
        · have same := kept 255 (by omega) (by omega) (by omega) (i + 2) (by omega)
          rw [show 255 * 2 + (i + 2) = k * 4 + i by omega, new i small] at same
          exact same.symm
      exact ⟨fun i small => (near shown i small).symm.trans (back i small), shown⟩
  · rintro ⟨first, later⟩
    by_cases zero : k = 0
    · obtain ⟨same, two, three⟩ := first zero
      subst zero
      refine ⟨fun i small => ?_, fun l _ other _ i small => ?_⟩
      · rw [← same i small]
        exact new i small
      by_cases here : l * 2 + i < 4
      · obtain eq | eq : l * 2 + i = 2 ∨ l * 2 + i = 3 := by omega
        · rw [eq, two, ← same 2 (by omega)]
          exact new 2 (by omega)
        · rw [eq, three, ← same 3 (by omega)]
          exact new 3 (by omega)
      · exact old _ (by omega)
    · obtain ⟨back, shown⟩ := later zero
      exact ⟨fun i small => (near shown i small).trans (back i small),
        fun l _ _ _ i small => unchanged shown _ (by omega)⟩

/-- Byte `k` of the configuration registers reads as it was written, for the interrupts it
describes, and the other bytes read as before. -/
def ReadsBack (s : State c) (cpu : Fin c.numCpu) (k : Nat) (value : BitVec 8) : Prop :=
  ∀ t, gicDistWriteb s cpu (0xc00 + k) (value.setWidth 32) = .ok t → ∀ reader : Fin c.numCpu,
    (∃ res, gicDistReadb t reader (0xc00 + k) = .ok res ∧
      ∀ i < 4, k * 4 + i < c.nirq → bitPair res i = bitPair value i) ∧
    ∀ l < 0x100, l ≠ k →
      gicDistReadb t reader (0xc00 + l) = gicDistReadb s reader (0xc00 + l)

/-- Byte 0 has all trigger bits set and what interrupts 2 and 3 have already. Another byte
has what the interrupts from `k * 2` on have, and is stored where its values are already,
as far as a configuration byte shows the interrupt. -/
def ScalingsAgree (s : State c) (k : Nat) (value : BitVec 8) : Prop :=
  c.nvic = false → k * 4 < c.nirq →
    (k = 0 → (∀ i < 4, value.getLsbD (i * 2 + 1) = true) ∧
      configuration s 2 = bitPair value 2 ∧ configuration s 3 = bitPair value 3) ∧
    (k ≠ 0 → (∀ i < 4, configuration s (k * 2 + i) = bitPair value i) ∧
      ∀ i < 4, k * 4 + i < 514 → configuration s (k * 4 + i) = bitPair (storedByte k value) i)

theorem storedByte_first (value : BitVec 8) (small : i < 4) :
    bitPair (storedByte 0 value) i = bitPair value i ↔ value.getLsbD (i * 2 + 1) = true := by
  unfold bitPair storedByte
  have forced : (0xaa#8).getLsbD (i * 2) = false ∧ (0xaa#8).getLsbD (i * 2 + 1) = true := by
    obtain rfl | rfl | rfl | rfl : i = 0 ∨ i = 1 ∨ i = 2 ∨ i = 3 := by omega
    all_goals decide
  rw [if_pos (by decide), getLsbD_or, getLsbD_or, forced.1, forced.2, Bool.or_false,
    Bool.or_true, Prod.mk.injEq]
  exact ⟨fun same => same.2.symm, fun set => ⟨rfl, set.symm⟩⟩

theorem configuration_reads_back_iff (s : State c) (cpu : Fin c.numCpu) (k : Fin 0x100)
    (value : BitVec 8) : ReadsBack s cpu k value ↔ ScalingsAgree s k value := by
  obtain ⟨k, small⟩ := k
  dsimp only
  cases nvic : c.nvic with
  | true =>
    refine ⟨fun _ real => ?_, fun _ t h => ?_⟩
    · cases nvic.symm.trans real
    · rw [configurationWrite_nvic s cpu _ nvic] at h
      cases h
  | false =>
    unfold ReadsBack
    rw [configurationWrite s cpu value nvic small]
    by_cases inside : k * 4 ≥ c.nirq
    · rw [if_pos inside]
      exact ⟨fun _ _ below => absurd below (by omega), fun _ t h => nomatch h⟩
    rw [if_neg inside]
    have words := c.nirq_words
    have agree := scalings_agree_iff (v := bitPair value) (n := c.nirq)
      (configured s k value) (by omega) (by omega)
    have first : k = 0 → ((∀ i < 4, bitPair (storedByte k value) i = bitPair value i) ↔
        ∀ i < 4, value.getLsbD (i * 2 + 1) = true) := by
      rintro rfl
      exact forall₂_congr fun i below => storedByte_first value below
    rw [imp_congr_right fun zero => and_congr_left' (first zero)] at agree
    constructor
    · intro back _ _
      obtain ⟨⟨res, read, bits⟩, others⟩ := back _ rfl cpu
      rw [configurationRead _ cpu nvic (by omega), if_neg (by omega), if_neg (by omega)] at read
      cases read
      refine agree.mp ⟨fun i below => ?_, fun l hl other =>
        (configurationRead_eq_iff cpu nvic hl).mp (others l hl other)⟩
      rw [← configurationByte_bits _ _ below]
      exact bits i below (by omega)
    · intro fits t wrote reader
      cases wrote
      obtain ⟨back, kept⟩ := agree.mpr (fits nvic (by omega))
      have shows : ∀ t : State c,
          gicDistReadb t reader (0xc00 + k) = .ok (configurationByte t (k * 2)) := by
        intro t
        rw [configurationRead t reader nvic (by omega), if_neg (by omega), if_neg (by omega)]
      refine ⟨⟨_, shows _, fun i below _ => ?_⟩, fun l hl other =>
        (configurationRead_eq_iff reader nvic hl).mpr (kept l hl other)⟩
      rw [configurationByte_bits _ _ below]
      exact back i below

/-- The byte for interrupts 32 to 35 of a controller after reset: it reads as before, and the
byte at 0xc10 has changed. -/
theorem configuration_read_elsewhere :
    ((gicDistWriteb (gicInit realview) 0 0xc08 0xaa).toOption.bind fun t =>
      (gicDistReadb t 0 0xc08).toOption) = some 0 ∧
    ((gicDistWriteb (gicInit realview) 0 0xc08 0xaa).toOption.bind fun t =>
      (gicDistReadb t 0 0xc10).toOption) = some 0xaa ∧
    (gicDistReadb (gicInit realview) 0 0xc10).toOption = some 0 := by
  decide +kernel

/-! ## Targets -/

/-- Bit `j` of byte `k` of an enable or pending register is set in `value`. -/
def Asks (c : Config) (k : Nat) (value : BitVec 8) (j : Nat) : Prop :=
  k * 8 + baseIrq c ≤ j ∧ j < k * 8 + baseIrq c + 8 ∧
    value.getLsbD (j - (k * 8 + baseIrq c)) = true

instance (c : Config) (k : Nat) (value : BitVec 8) (j : Nat) : Decidable (Asks c k value j) :=
  inferInstanceAs (Decidable (_ ∧ _ ∧ _))

theorem forBits_eq {value : BitVec 8} {g : IrqState c.ncpu → IrqState c.ncpu}
    (body : ∀ t i, t.irqTarget = s.irqTarget → f t i = t.modify (k * 8 + baseIrq c + i) g) :
    forBits 8 (value.setWidth 32) f s =
      { s with
        irqState := fun j => if Asks c k value j then g (s.irqState j) else s.irqState j } := by
  unfold forBits
  rw [modifyLoop (g := fun i => if value.getLsbD i then g else id)]
  · congr 1
    funext j
    by_cases inside : k * 8 + baseIrq c ≤ j ∧ j < k * 8 + baseIrq c + 8
    · rw [if_pos inside]
      by_cases set : value.getLsbD (j - (k * 8 + baseIrq c)) = true
      · rw [if_pos set, if_pos (⟨inside.1, inside.2, set⟩)]
      · rw [if_neg set, if_neg fun asks : Asks c k value j => set asks.2.2]
        rfl
    · rw [if_neg inside, if_neg fun asks : Asks c k value j => inside ⟨asks.1, asks.2.1⟩]
  · intro t i same
    have bit : (value.setWidth 32).getLsbD i = value.getLsbD i := by
      rw [getLsbD_setWidth, Bool.and_eq_right_iff_imp, decide_eq_true_eq]
      intro set
      have := lt_of_getLsbD set
      omega
    rw [bit]
    split
    · exact body t i same
    · exact (modify_id t _).symm

theorem gicTarget_congr (same : t.irqTarget = s.irqTarget) (irq : Nat) :
    gicTarget t irq = gicTarget s irq := by
  unfold gicTarget
  rw [same]

/-- An interrupt pending on the CPUs of `target` as well. -/
def IrqState.pend {n : Nat} (q : IrqState n) (target : BitVec n) : IrqState n :=
  { q with pending := q.pending ||| target }

theorem pendingWrite (s : State c) (cpu : Nat) (value : BitVec 8) (small : k < 0x80)
    (shared : 32 ≤ k * 8 + baseIrq c) :
    gicDistWriteb s cpu (0x200 + k) (value.setWidth 32) =
      if k * 8 + baseIrq c ≥ c.nirq then badWrite (0x200 + k)
      else .ok (gicUpdate { s with
        irqState := fun j =>
          if Asks c k value j then (s.irqState j).pend (gicTarget s (k * 8 + baseIrq c))
          else s.irqState j }) := by
  unfold gicDistWriteb writeRegister
  iterate 3 rw [if_neg (by omega)]
  have offset : 0x200 + k - 0x200 = k := by omega
  rw [if_pos (by omega), offset]
  by_cases inside : k * 8 + baseIrq c ≥ c.nirq
  · rw [if_pos inside, if_pos inside]
    rfl
  · rw [if_neg inside, if_neg inside, if_neg (by omega), ok_bind,
      forBits_eq (g := (·.pend (gicTarget s (k * 8 + baseIrq c))))]
    intro t i same
    rw [gicTarget_congr same]
    rfl

/-- Interrupt states with the enable bits set, and pending on `target` where the line is
seen there. -/
def IrqState.enable {n : Nat} (q : IrqState n) (target : BitVec n) : IrqState n :=
  let q := { q with enabled := q.enabled ||| BitVec.allOnes n }
  if decide (q.level &&& target ≠ 0#n) && !q.trigger then q.pend target else q

theorem setEnable_eq (cpu : Nat) (shared : 32 ≤ irq) (i : Nat) :
    setEnable cpu irq s i = s.modify (irq + i) (·.enable (gicTarget s irq)) := by
  unfold setEnable
  simp only [if_neg (show ¬ irq < 32 by omega)]
  unfold gicSetEnabled gicTestLevel gicSetPending IrqState.enable State.modify
  simp only [set_same, set_set]
  split <;> rfl

variable (s : State c)

theorem enableWrite (cpu : Nat) (value : BitVec 8) (small : k < 0x80)
    (shared : 32 ≤ k * 8 + baseIrq c) : gicDistWriteb s cpu (0x100 + k) (value.setWidth 32) =
      if k * 8 + baseIrq c ≥ c.nirq then badWrite (0x100 + k) else .ok (gicUpdate { s with
        irqState := fun j =>
          if Asks c k value j then (s.irqState j).enable (gicTarget s (k * 8 + baseIrq c))
          else s.irqState j }) := by
  unfold gicDistWriteb writeRegister
  have offset : 0x100 + k - 0x100 = k := by omega
  rw [if_neg (by omega), if_pos (by omega), offset]
  by_cases inside : k * 8 + baseIrq c ≥ c.nirq
  · rw [if_pos inside, if_pos inside]
    rfl
  · rw [if_neg inside, if_neg inside, if_neg (by omega), ok_bind,
      forBits_eq (g := (·.enable (gicTarget s (k * 8 + baseIrq c))))]
    intro t i same
    rw [setEnable_eq cpu shared, gicTarget_congr same]

/-- A set-pending byte makes each interrupt whose bit is set pending on the interrupt's own
targets, and leaves the others as they were. -/
def PendsOwnTargets (cpu : Fin c.numCpu) (k : Nat) (value : BitVec 8) : Prop :=
  ∀ t, gicDistWriteb s cpu (0x200 + k) (value.setWidth 32) = .ok t → ∀ j,
    t.irqState j =
      if Asks c k value j then (s.irqState j).pend (gicTarget s j) else s.irqState j

/-- The interrupt is level sensitive and `gic_set_irq` has seen its line high last. -/
def LevelHigh (j : Nat) : Prop :=
  (s.irqState j).trigger = false ∧ (s.irqState j).level = allCpuMask c

/-- A set-enable byte makes each interrupt whose bit is set and whose line is high pending on
the interrupt's own targets, and leaves the interrupts whose bit is clear as they were. -/
def EnablesOwnTargets (cpu : Fin c.numCpu) (k : Nat) (value : BitVec 8) : Prop :=
  ∀ t, gicDistWriteb s cpu (0x100 + k) (value.setWidth 32) = .ok t → ∀ j,
    (Asks c k value j → LevelHigh s j →
      (t.irqState j).pending = ((s.irqState j).pend (gicTarget s j)).pending) ∧
    (¬ Asks c k value j → t.irqState j = s.irqState j)

/-- Where the first interrupt of byte `k` and interrupt `j` differ in a target CPU, interrupt
`j` is pending on that CPU already. -/
def SameTargets (k j : Nat) : Prop :=
  (s.irqState j).pending ||| gicTarget s (k * 8 + baseIrq c) =
    (s.irqState j).pending ||| gicTarget s j

theorem pend_eq_iff {a b : BitVec n} : q.pend a = q.pend b ↔ q.pending ||| a = q.pending ||| b := by
  unfold IrqState.pend
  rw [IrqState.mk.injEq]
  simp only [true_and, and_true]

theorem enable_pending (target : BitVec n) (level : q.trigger = false)
    (high : q.level = BitVec.allOnes n) : (q.enable target).pending = q.pending ||| target := by
  unfold IrqState.enable
  rw [high, level]
  by_cases none : target = 0#n
  · subst none
    simp
  · simp [none, IrqState.pend]

theorem own_targets_iff (cpu : Fin c.numCpu) (k : Fin 0x80) (value : BitVec 8)
    (shared : 32 ≤ k * 8 + baseIrq c) :
    (PendsOwnTargets s cpu k value ↔ k * 8 + baseIrq c < c.nirq →
      ∀ j, Asks c k value j → SameTargets s k j) ∧
    (EnablesOwnTargets s cpu k value ↔ k * 8 + baseIrq c < c.nirq →
      ∀ j, Asks c k value j → LevelHigh s j → SameTargets s k j) := by
  obtain ⟨k, small⟩ := k
  unfold PendsOwnTargets EnablesOwnTargets
  rw [pendingWrite s cpu value small shared, enableWrite s cpu value small shared]
  by_cases inside : k * 8 + baseIrq c < c.nirq
  · rw [if_neg (by omega), if_neg (by omega)]
    refine ⟨⟨fun own _ j asks => ?_, fun same t wrote j => ?_⟩,
      ⟨fun own _ j asks high => ?_, fun same t wrote j => ?_⟩⟩
    · have at_j := own _ rfl j
      rw [gicUpdate_irqState] at at_j
      simp only [asks, if_true] at at_j
      exact pend_eq_iff.mp at_j
    · cases wrote
      rw [gicUpdate_irqState]
      dsimp only
      split
      · exact pend_eq_iff.mpr (same inside j ‹_›)
      · rfl
    · have at_j := (own _ rfl j).1 asks high
      rw [gicUpdate_irqState] at at_j
      simp only [asks, if_true] at at_j
      rw [enable_pending _ high.1 high.2] at at_j
      exact at_j
    · cases wrote
      rw [gicUpdate_irqState]
      dsimp only
      constructor
      · intro asks high
        rw [if_pos asks, enable_pending _ high.1 high.2]
        exact same inside j asks high
      · intro silent
        rw [if_neg silent]
  · rw [if_pos (by omega), if_pos (by omega)]
    exact ⟨⟨fun _ below => absurd below inside, fun _ t wrote => nomatch wrote⟩,
      ⟨fun _ below => absurd below inside, fun _ t wrote => nomatch wrote⟩⟩

/-- Interrupts 32 to 63 go to the first CPU, the later ones to both. -/
def splitTargets : State a9mpcore :=
  { gicInit a9mpcore with irqTarget := fun irq => if irq < 64 then 1 else 3 }

theorem split_targets_pend :
    PendsOwnTargets splitTargets ⟨1, by decide⟩ 4 0xa5 ∧
      EnablesOwnTargets splitTargets ⟨1, by decide⟩ 8 0x5a := by
  refine ⟨(own_targets_iff splitTargets ⟨1, by decide⟩ ⟨4, by decide⟩ 0xa5 (by decide)).1.mpr ?_,
    (own_targets_iff splitTargets ⟨1, by decide⟩ ⟨8, by decide⟩ 0x5a (by decide)).2.mpr ?_⟩
  · rintro _ j ⟨from32, to39, _⟩
    have below : j < 64 := to39.trans_le (by decide)
    simp [SameTargets, splitTargets, gicTarget, a9mpcore, baseIrq, below]
  · rintro _ j ⟨from64, to71, _⟩ _
    have above : ¬ j < 64 := Nat.not_lt.mpr from64
    simp [SameTargets, splitTargets, gicTarget, a9mpcore, baseIrq, above]

/-- Interrupt 32 for the first CPU, interrupt 33 for the second: set pending, or enabled
with its line high, interrupt 33 is pending on the first. -/
theorem first_target_used :
    ((run gicStep (gicInit a9mpcore) [.writeb ⟨0, by decide⟩ 0x820 1,
        .writeb ⟨0, by decide⟩ 0x821 2, .writeb ⟨0, by decide⟩ 0x204 2]).toOption.map
      fun t => ((t.irqState 33).pending, gicTarget t 33)) = some (1, 2) ∧
    ((run gicStep (gicInit a9mpcore) [.writeb ⟨0, by decide⟩ 0x820 1,
        .writeb ⟨0, by decide⟩ 0x821 2, .setIrq 1 1, .writeb ⟨0, by decide⟩ 0x104 2]).toOption.map
      fun t => ((t.irqState 33).pending, gicTarget t 33)) = some (1, 2) := by
  decide +kernel

end

end QemuStm32.Gic
