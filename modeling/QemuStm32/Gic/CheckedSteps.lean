import QemuStm32.Gic.Checked
import QemuStm32.Gic.Nesting

/-!
# The controller on bounded and on unbounded arrays

As long as the recorded interrupts are in range, the controller on arrays of
their declared sizes takes the steps of the one on unbounded arrays, one lemma
for each function (`step_eq` for an access).
-/

namespace QemuStm32.Gic.Checked

open List Runs

section
variable {c : Config} {s : State c} {irq cpu : Nat}

variable {α : Type} {array : String} {size i n tmp k : Nat}
  {f : State c → Nat → Except Fault (State c)} {g : State c → Nat → State c}

theorem load_ok (inside : i < size) (f : Nat → α) : load array size f i = .ok (f i) := if_pos inside

theorem store_ok (inside : i < size) (f : Nat → α) (x : α) :
    store array size f i x = .ok (set f i x) := if_pos inside

section
variable (s : State c)

theorem irqState_ok (inside : irq < c.nirq) :
    irqState s irq = .ok (s.irqState irq) := load_ok inside _

theorem irqState_error (outside : ¬ irq < c.nirq) :
    irqState s irq = .error (.outOfBounds "irq_state" irq) := if_neg outside

theorem modify_ok (inside : irq < c.nirq) (f : IrqState c.ncpu → IrqState c.ncpu) :
    modify s irq f = .ok (s.modify irq f) := by
  unfold modify
  rw [irqState_ok s inside, ok_bind, store_ok inside]
  rfl

theorem modify_error (outside : ¬ irq < c.nirq) (f : IrqState c.ncpu → IrqState c.ncpu) :
    modify s irq f = .error (.outOfBounds "irq_state" irq) := by
  unfold modify
  rw [irqState_error s outside]
  rfl

theorem priority_ok (inside : irq < c.nirq) (here : cpu < c.numCpu) :
    gicGetPriority s irq cpu = .ok (Gic.gicGetPriority s irq cpu) := by
  unfold gicGetPriority Gic.gicGetPriority
  split
  · rw [load_ok ‹_›, ok_bind, load_ok here]
  · rw [load_ok (by omega)]

theorem target_ok (inside : irq < c.nirq) : gicTarget s irq = .ok (Gic.gicTarget s irq) := by
  unfold gicTarget Gic.gicTarget
  split
  · rfl
  · exact load_ok inside _

/-! ## The interrupt decision -/

section
variable (here : cpu < c.numCpu)
include here

theorem searchBest_ok (best : Nat × Nat)
    (inside : irq < c.nirq) : searchBest s cpu best irq = .ok (Gic.searchBest s cpu best irq) := by
  unfold searchBest Gic.searchBest gicTestEnabled gicTestPending
  rw [irqState_ok s inside, ok_bind, priority_ok s inside here, ok_bind]
  simp only [Bool.and_eq_true, decide_eq_true_eq]
  split
  · split <;> rfl
  · rfl

theorem findBest_ok : findBest s cpu = .ok (Gic.findBest s cpu) :=
  foldlM_eq_ok (fun best _ mem => searchBest_ok s here best (mem_range.mp mem)) _

theorem setParent_ok (level : Bool) : setParent s cpu level = .ok (Gic.setParent s cpu level) := by
  unfold setParent
  rw [store_ok here]
  rfl

theorem setCurrentPending_ok (irq : Nat) : setCurrentPending s cpu irq =
      .ok { s with currentPending := set s.currentPending cpu irq } := by
  unfold setCurrentPending
  rw [store_ok here]
  rfl

end

theorem gicUpdateFrom_ok (here : cpu + n ≤ c.numCpu) :
    gicUpdateFrom n cpu s = .ok (Gic.gicUpdateFrom n cpu s) := by
  induction n generalizing cpu s with
  | zero => rfl
  | succ n ih =>
    have below : cpu < c.numCpu := by omega
    unfold gicUpdateFrom Gic.gicUpdateFrom signal
    simp only [load_ok below, setCurrentPending_ok _ below, setParent_ok _ below,
      findBest_ok _ below, ok_bind]
    cases s.enabled
    · rfl
    · cases s.cpuEnabled cpu
      · rfl
      · simp only [if_true, Bool.not_true, Bool.or_self, Bool.false_eq_true, if_false]
        split <;> exact ih _ (by omega)

theorem gicUpdate_ok : gicUpdate s = .ok (Gic.gicUpdate s) :=
  gicUpdateFrom_ok s (by omega)

theorem gicSetPendingPrivate_eq (cpu irq : Nat) :
    gicSetPendingPrivate s cpu irq = Gic.gicSetPendingPrivate s cpu irq := by
  unfold gicSetPendingPrivate Gic.gicSetPendingPrivate gicTestPending
  by_cases inside : irq < c.nirq
  · rw [irqState_ok s inside, ok_bind, if_pos inside, modify_ok s inside, ok_bind, gicUpdate_ok]
    simp only [decide_eq_true_eq]
    rfl
  · rw [irqState_error s inside, if_neg inside]
    rfl

theorem gicSetIrq_eq (irq : Nat) (level : Int) :
    gicSetIrq s irq level = Gic.gicSetIrq s irq level := by
  unfold gicSetIrq Gic.gicSetIrq raiseLine
  by_cases inside : irq + 32 < c.nirq
  · simp only [irqState_ok _ inside, modify_ok _ inside, target_ok _ inside, ok_bind,
      gicUpdate_ok, if_pos inside]
    unfold gicTestLevel gicTestEnabled
    split
    · rfl
    split
    · simp only [Bool.or_eq_true, decide_eq_true_eq]
      split
      · rw [if_pos ‹_›]
        rfl
      · rw [if_neg ‹_›]
        rfl
    · rfl
  · simp only [irqState_error s inside, if_neg inside]
    rfl

/-! ## Acknowledge and completion -/

theorem gicSetRunningIrq_ok (here : cpu < c.numCpu) (number : irq = 1023 ∨ irq < c.nirq) :
    gicSetRunningIrq s cpu irq = .ok (Gic.gicSetRunningIrq s cpu irq) := by
  unfold gicSetRunningIrq Gic.gicSetRunningIrq
  by_cases none : irq = 1023
  · simp only [if_pos none, ok_bind, store_ok here, gicUpdate_ok]
  · simp only [if_neg none, priority_ok _ (number.resolve_left none) here, ok_bind,
      store_ok here, gicUpdate_ok]

theorem lastActive_ok (inside : irq < c.nirq) (here : cpu < c.numCpu) :
    lastActive s irq cpu = .ok (s.lastActive irq cpu) := by
  unfold lastActive
  rw [load_ok inside, ok_bind, load_ok here]

theorem setLastActive_ok (inside : irq < c.nirq) (here : cpu < c.numCpu)
    (value : Nat) : setLastActive s irq cpu value = .ok (Gic.setLastActive s irq cpu value) := by
  unfold setLastActive
  rw [load_ok inside, ok_bind, store_ok here, ok_bind, store_ok inside]
  rfl

end

theorem gicAcknowledgeIrq_ok (inRange : InRange s) (here : cpu < c.numCpu) :
    gicAcknowledgeIrq s cpu = .ok (Gic.gicAcknowledgeIrq s cpu) := by
  unfold gicAcknowledgeIrq Gic.gicAcknowledgeIrq takeIrq
  rw [load_ok here, ok_bind]
  by_cases none : s.currentPending cpu = 1023
  · rw [if_pos none, if_pos (.inl none)]
  have inside := (inRange.pending cpu).resolve_left none
  simp only [if_neg none, priority_ok _ inside here, load_ok here, ok_bind,
    setLastActive_ok _ inside here, modify_ok _ inside,
    gicSetRunningIrq_ok _ here (.inr inside)]
  by_cases low : Gic.gicGetPriority s (s.currentPending cpu) cpu ≥ s.runningPriority cpu
  · rw [if_pos low, if_pos (.inr low)]
  · rw [if_neg low, if_neg (not_or.mpr ⟨none, low⟩)]
    rfl

theorem findActive_eq (inRange : InRange s) (here : cpu < c.numCpu) (rounds : Nat)
    (inside : tmp < c.nirq) :
    findActive s cpu irq rounds tmp = Gic.findActive (s.next cpu) irq rounds tmp := by
  induction rounds generalizing tmp with
  | zero => rfl
  | succ rounds ih =>
    unfold findActive Gic.findActive
    rw [lastActive_ok s inside here, ok_bind]
    have next : s.lastActive tmp cpu = s.next cpu tmp := rfl
    rw [next]
    by_cases last : s.next cpu tmp = 1023
    · rw [if_pos last, if_pos last]
    · rw [if_neg last, if_neg last, ih ((inRange.links cpu tmp).resolve_left last)]

/-- What the search finds is an interrupt whose successor is the one searched for. -/
theorem findActive_found {next : Nat → Nat} {rounds found : Nat}
    (h : Gic.findActive next irq rounds tmp = .ok (some found)) (start : tmp < n)
    (links : ∀ i, next i = 1023 ∨ next i < n) : found < n ∧ irq < n := by
  induction rounds generalizing tmp with
  | zero => cases h
  | succ rounds ih =>
    unfold Gic.findActive at h
    by_cases last : next tmp = 1023
    · rw [if_pos last] at h
      cases h
    rw [if_neg last] at h
    by_cases hit : next tmp = irq
    · rw [if_pos hit] at h
      cases h
      have number := (links found).resolve_left last
      rw [hit] at number
      exact ⟨start, number⟩
    · rw [if_neg hit] at h
      exact ih h ((links tmp).resolve_left last)

theorem unlink_ok (s : State c) (here : cpu < c.numCpu) (irq : Nat) (found : Option Nat)
    (inside : ∀ tmp, found = some tmp → tmp < c.nirq ∧ irq < c.nirq) :
    unlink s cpu irq found = .ok (Gic.unlink s cpu irq found) := by
  cases found with
  | none => rfl
  | some tmp =>
    obtain ⟨inside, number⟩ := inside tmp rfl
    unfold unlink
    dsimp only
    rw [lastActive_ok s number here, ok_bind, setLastActive_ok s inside here]
    rfl

theorem repend_ok (s : State c) (cpu : Nat) (number : irq = 1023 ∨ irq < c.nirq) :
    repend s cpu irq = .ok (Gic.repend s cpu irq) := by
  unfold repend Gic.repend
  by_cases none : irq = 1023
  · rw [if_neg (not_not.mpr none), if_neg (not_not.mpr none)]
  have inside := number.resolve_left none
  rw [if_pos none, irqState_ok s inside, ok_bind, target_ok s inside, ok_bind, modify_ok s inside]
  unfold gicTestEnabled gicTestLevel
  simp only [Bool.and_eq_true, Bool.not_eq_true', decide_eq_true_eq, and_assoc]
  split
  · rename_i raised
    split
    · rename_i targeted
      rw [if_pos ⟨raised.1, raised.2.1, raised.2.2, targeted⟩]
      rfl
    · rename_i other
      rw [if_neg fun all => other all.2.2.2]
  · rename_i idle
    rw [if_neg fun all => idle ⟨all.1, all.2.1, all.2.2.1⟩]

theorem gicCompleteIrq_eq (inRange : InRange s) (here : cpu < c.numCpu) (irq : Nat) :
    gicCompleteIrq s cpu irq = Gic.gicCompleteIrq s cpu irq := by
  unfold gicCompleteIrq Gic.gicCompleteIrq
  rw [load_ok here, ok_bind]
  by_cases idle : s.runningIrq cpu = 1023
  · rw [if_pos idle, if_pos idle]
  rw [if_neg idle, if_neg idle]
  have start := (inRange.running cpu).resolve_left idle
  by_cases number : irq = 1023 ∨ irq < c.nirq
  · have frame := repend_frame s cpu irq
    have inRange' := inRange.frame frame
    rw [if_neg (by omega), repend_ok s cpu number, ok_bind]
    unfold leaveIrq
    dsimp only
    generalize Gic.repend s cpu irq = r at frame inRange'
    obtain ⟨t, update⟩ := r
    rw [← frame.runningIrq] at start ⊢
    by_cases self : irq = t.runningIrq cpu
    · rw [if_neg (not_not.mpr self), if_neg (not_not.mpr self), lastActive_ok t start here]
      exact gicSetRunningIrq_ok t here (inRange'.links cpu _)
    rw [if_pos self, if_pos self, findActive_eq inRange' here _ start]
    have search : (fun i => t.lastActive i cpu) = t.next cpu := rfl
    rw [search]
    cases found : Gic.findActive (t.next cpu) irq (c.nirq + 1) (t.runningIrq cpu) with
    | error fault => rfl
    | ok o =>
      have unlinked := unlink_ok t here irq o fun tmp hit =>
        findActive_found (hit ▸ found) start (inRange'.links cpu)
      rw [ok_bind, unlinked, ok_bind, gicUpdate_ok]
      cases update <;> rfl
  · rw [if_pos (by omega)]
    unfold repend
    rw [if_pos (by omega), irqState_error s (by omega)]
    rfl

/-! ## Registers -/

/-- A register byte of eight interrupts begins at a multiple of eight, and the number of
interrupts is one. -/
theorem byte_inside (below : k * 8 + baseIrq c < c.nirq) : k * 8 + baseIrq c + 8 ≤ c.nirq := by
  have words := c.nirq_words
  have base : baseIrq c = 0 ∨ baseIrq c = 32 := by
    unfold baseIrq
    split
    · exact .inr rfl
    · exact .inl rfl
  omega

section
variable (s : State c)

theorem readBits_eq (offset : Nat) (p : IrqState c.ncpu → Bool) :
    readBits s (k * 8 + baseIrq c) offset p =
      Gic.readBits c (k * 8 + baseIrq c) offset fun i => p (s.irqState i) := by
  unfold readBits Gic.readBits
  by_cases outside : k * 8 + baseIrq c ≥ c.nirq
  · rw [if_pos outside, if_pos outside]
  rw [if_neg outside, if_neg outside]
  have room := byte_inside (Nat.lt_of_not_le outside)
  refine foldlM_eq_ok (fun res i mem => ?_) 0
  have small := mem_range.mp mem
  dsimp only
  rw [irqState_ok s (by omega)]
  rfl

theorem configuration_collects (p q : Nat → Bool) (n : Nat) :
    (List.range n).foldl (fun res i =>
      let res : BitVec 32 := if p i then res ||| (1#32 <<< (i * 2)) else res
      if q i then res ||| (1#32 <<< (i * 2 + 1)) else res) 0 =
    Gic.collect n (· * 2) p ||| Gic.collect n (· * 2 + 1) q := by
  unfold Gic.collect
  induction n with
  | zero => simp
  | succ n ih =>
    simp only [range_succ, foldl_append, foldl_cons, foldl_nil]
    rw [ih]
    cases p n
    · cases q n
      · rfl
      · exact BitVec.or_assoc _ _ _
    · cases q n
      · simp only [if_true, Bool.false_eq_true, if_false]
        ac_rfl
      · simp only [if_true]
        ac_rfl

/-- The loop over a configuration byte runs into the end of the array where the byte begins
two interrupts before it. -/
theorem readConfiguration_eq (below : k * 2 < c.nirq) :
    (List.range 4).foldlM (readConfiguration s (k * 2)) 0 =
      if k * 2 + 3 ≥ c.nirq then .error (.outOfBounds "irq_state" c.nirq)
      else .ok (Gic.collect 4 (· * 2) (fun i => (s.irqState (k * 2 + i)).model) |||
        Gic.collect 4 (· * 2 + 1) fun i => (s.irqState (k * 2 + i)).trigger) := by
  by_cases outside : k * 2 + 3 ≥ c.nirq
  · rw [if_pos outside]
    have words := c.nirq_words
    have last : k * 2 + 2 = c.nirq := by omega
    have range : range 4 = [0, 1, 2, 3] := rfl
    rw [range]
    simp only [foldlM_cons]
    unfold readConfiguration
    rw [irqState_ok s (by omega), irqState_ok s (by omega), irqState_error s (by omega), last]
    rfl
  · rw [if_neg outside, ← configuration_collects]
    refine foldlM_eq_ok (fun res i mem => ?_) 0
    have small := mem_range.mp mem
    unfold readConfiguration
    rw [irqState_ok s (by omega)]
    rfl

section
variable (here : cpu < c.numCpu) (offset : Nat)
include here

theorem gicDistReadb_eq : gicDistReadb s cpu offset = Gic.gicDistReadb s cpu offset := by
  unfold gicDistReadb
  dsimp only
  rw [readBits_eq, readBits_eq, readBits_eq]
  refine ite_congr rfl (fun _ => rfl) fun _ => ite_congr rfl (fun _ => rfl) fun _ => ?_
  refine ite_congr rfl (fun _ => rfl) fun _ => ite_congr rfl (fun _ => rfl) fun _ => ?_
  refine ite_congr rfl (fun _ => ite_congr rfl (fun _ => rfl) fun inside => ?_) fun _ => ?_
  · rw [priority_ok s (by omega) here]
    rfl
  refine ite_congr rfl (fun _ => ite_congr rfl (fun _ => rfl) fun inside => ?_) fun _ => ?_
  · rw [target_ok s (by omega)]
    rfl
  refine ite_congr rfl (fun configuration => ?_) fun _ => ?_
  · have nvic : c.nvic = false := by
      simp only [Bool.and_eq_true, Bool.not_eq_true'] at configuration
      exact configuration.1
    simp only [baseIrq, nvic, Bool.false_eq_true, if_false, Nat.add_zero]
    exact ite_congr rfl (fun _ => rfl) fun inside => readConfiguration_eq s (by omega)
  by_cases inside : (offset - 0xfe0) / 4 < (gicId c).length
  · rw [load_ok inside, getD_eq_getElem?_getD, getElem?_eq_getElem inside]
    rfl
  · unfold load
    rw [if_neg inside, getElem?_eq_none (by omega)]
    rfl

theorem gicDistReadw_eq : gicDistReadw s cpu offset = Gic.gicDistReadw s cpu offset := by
  unfold gicDistReadw Gic.gicDistReadw
  rw [gicDistReadb_eq s here, gicDistReadb_eq s here]

theorem gicDistReadl_eq : gicDistReadl s cpu offset = Gic.gicDistReadl s cpu offset := by
  unfold gicDistReadl Gic.gicDistReadl
  rw [gicDistReadw_eq s here, gicDistReadw_eq s here]

end

theorem forBits_ok (body : ∀ s, ∀ i < n, f s i = .ok (g s i)) (value : BitVec 32) (s : State c) :
    forBits n value f s = .ok (Gic.forBits n value g s) := by
  refine foldlM_eq_ok (fun s i mem => ?_) s
  rw [body s i (mem_range.mp mem)]
  split <;> rfl

theorem enableIrq_ok (inside : irq < c.nirq) (mask cm : BitVec c.ncpu) : enableIrq s irq mask cm =
      .ok (if gicTestLevel (gicSetEnabled s irq cm) irq mask &&
          !((gicSetEnabled s irq cm).irqState irq).trigger then
        gicSetPending (gicSetEnabled s irq cm) irq mask else gicSetEnabled s irq cm) := by
  have enabled : modify s irq (fun q => { q with enabled := q.enabled ||| cm }) =
      .ok (gicSetEnabled s irq cm) := modify_ok s inside _
  have pended : modify (gicSetEnabled s irq cm) irq (fun q =>
        { q with pending := q.pending ||| mask }) =
      .ok (gicSetPending (gicSetEnabled s irq cm) irq mask) := modify_ok _ inside _
  unfold enableIrq gicTestLevel
  rw [enabled, ok_bind, irqState_ok _ inside, ok_bind, pended]
  simp only [Bool.and_eq_true, decide_eq_true_eq, Bool.not_eq_true']
  split <;> rfl

theorem setEnable_ok (cpu : Nat) (s : State c) (inside : irq + i < c.nirq) :
    setEnable cpu irq s i = .ok (Gic.setEnable cpu irq s i) := by
  unfold setEnable Gic.setEnable
  by_cases priv : irq < 32
  · simp only [if_pos priv]
    exact enableIrq_ok s inside _ _
  · simp only [if_neg priv]
    rw [target_ok s (by omega)]
    exact enableIrq_ok s inside _ _

theorem setPending_ok (inside : irq + i < c.nirq) :
    setPending irq s i = .ok (gicSetPending s (irq + i) (Gic.gicTarget s irq)) := by
  unfold setPending
  rw [target_ok s (by omega), ok_bind, modify_ok s inside]
  rfl

theorem setPriority_ok (inside : irq < c.nirq) (here : cpu < c.numCpu)
    (value : Nat) : setPriority s irq cpu value = .ok (Gic.setPriority s irq cpu value) := by
  unfold setPriority Gic.setPriority
  by_cases priv : irq < 32
  · rw [if_pos priv, if_pos priv, load_ok priv, ok_bind, store_ok here, ok_bind, store_ok priv]
    rfl
  · rw [if_neg priv, if_neg priv, store_ok (by omega)]
    rfl

theorem setConfiguration_ok (value : BitVec 32) (s : State c) (inside : irq + i < c.nirq) :
    setConfiguration irq value s i = .ok (Gic.setConfiguration irq value s i) := by
  unfold setConfiguration
  rw [modify_ok s inside, ok_bind, modify_ok _ inside]
  rfl

/-- A byte of the registers with a bit for each interrupt. -/
theorem bitsWrite_eq {offset : Nat} {value : BitVec 32}
    (body : k * 8 + baseIrq c + 8 ≤ c.nirq → ∀ s, ∀ i < 8, f s i = .ok (g s i)) :
    (if k * 8 + baseIrq c ≥ c.nirq then badWrite offset else forBits 8 value f s) =
      if k * 8 + baseIrq c ≥ c.nirq then badWrite offset else .ok (Gic.forBits 8 value g s) :=
  ite_congr rfl (fun _ => rfl) fun inside =>
    forBits_ok (body (byte_inside (Nat.lt_of_not_le inside))) value s

section
variable (here : cpu < c.numCpu)
include here

section
variable (offset : Nat) (value : BitVec 32)

theorem writeRegister_eq :
    writeRegister s cpu offset value = Gic.writeRegister s cpu offset value := by
  unfold writeRegister
  dsimp only
  refine ite_congr rfl (fun _ => rfl) fun _ => ite_congr rfl (fun _ => ?_) fun _ => ?_
  · exact bitsWrite_eq s fun room s i small => setEnable_ok cpu s (by omega)
  refine ite_congr rfl (fun _ => ?_) fun _ => ite_congr rfl (fun _ => ?_) fun _ => ?_
  · exact bitsWrite_eq s fun room s i small => modify_ok s (by omega) _
  · refine bitsWrite_eq s fun room s i small => setPending_ok s ?_
    split <;> omega
  refine ite_congr rfl (fun _ => ?_) fun _ => ite_congr rfl (fun _ => rfl) fun _ => ?_
  · exact bitsWrite_eq s fun room s i small => modify_ok s (by omega) _
  refine ite_congr rfl (fun _ => ite_congr rfl (fun _ => rfl) fun inside => ?_) fun _ => ?_
  · exact setPriority_ok s (by omega) here _
  cases nvic : c.nvic with
  | true => simp only [Bool.not_true, Bool.false_and, Bool.false_eq_true, if_false]
  | false =>
    refine ite_congr rfl (fun _ => ite_congr rfl (fun _ => rfl) fun inside => ?_) fun _ => ?_
    · unfold setTarget
      rw [store_ok (by omega)]
      rfl
    · refine ite_congr rfl (fun _ => ?_) fun _ => rfl
      simp only [baseIrq, nvic, Bool.false_eq_true, if_false, Nat.add_zero]
      refine ite_congr rfl (fun _ => rfl) fun inside => foldlM_eq_ok (fun s i mem => ?_) s
      have words := c.nirq_words
      have small := mem_range.mp mem
      exact setConfiguration_ok _ s (by omega)

theorem gicDistWriteb_eq :
    gicDistWriteb s cpu offset value = Gic.gicDistWriteb s cpu offset value := by
  unfold gicDistWriteb Gic.gicDistWriteb
  rw [writeRegister_eq s here]
  simp only [gicUpdate_ok]

theorem gicDistWritew_eq :
    gicDistWritew s cpu offset value = Gic.gicDistWritew s cpu offset value := by
  unfold gicDistWritew Gic.gicDistWritew
  simp only [gicDistWriteb_eq _ here]

theorem gicDistWritel_eq :
    gicDistWritel s cpu offset value = Gic.gicDistWritel s cpu offset value := by
  unfold gicDistWritel Gic.gicDistWritel
  simp only [gicDistWritew_eq _ here, gicUpdate_ok]
  split
  · by_cases inside : (value &&& 0x3ff#32).toNat < c.nirq
    · rw [modify_ok s inside, if_pos inside]
      rfl
    · rw [modify_error s inside, if_neg inside]
      rfl
  · rfl

end

end

end

theorem gicCpuRead_eq (inRange : InRange s) (here : cpu < c.numCpu) (offset : Nat) :
    gicCpuRead s cpu offset = Gic.gicCpuRead s cpu offset := by
  unfold gicCpuRead
  split
  case h_3 => rfl
  case h_4 =>
    rw [gicAcknowledgeIrq_ok inRange here]
    rfl
  case h_7 =>
    rw [Gic.gicCpuRead]
    all_goals assumption
  all_goals
    rw [load_ok here]
    rfl

theorem gicCpuWrite_eq (inRange : InRange s) (here : cpu < c.numCpu) (offset : Nat)
    (value : BitVec 32) : gicCpuWrite s cpu offset value = Gic.gicCpuWrite s cpu offset value := by
  unfold gicCpuWrite
  split
  · rw [store_ok here, ok_bind, gicUpdate_ok]
    rfl
  · rw [store_ok here, ok_bind, gicUpdate_ok]
    rfl
  · rw [gicUpdate_ok]
    rfl
  · rw [gicCompleteIrq_eq inRange here]
    rfl
  · rw [Gic.gicCpuWrite]
    all_goals assumption

/-- With the recorded interrupts in range, both controllers take the same steps. -/
theorem step_eq (inRange : InRange s) (e : Event c) : step s e = gicStep s e := by
  cases e with
  | setIrq irq level => exact gicSetIrq_eq s irq level
  | setPendingPrivate cpu irq => exact gicSetPendingPrivate_eq s cpu irq
  | readb cpu offset => simp only [step, gicStep, gicDistReadb_eq s cpu.isLt]
  | readw cpu offset => simp only [step, gicStep, gicDistReadw_eq s cpu.isLt]
  | readl cpu offset => simp only [step, gicStep, gicDistReadl_eq s cpu.isLt]
  | writeb cpu offset value => exact gicDistWriteb_eq s cpu.isLt offset _
  | writew cpu offset value => exact gicDistWritew_eq s cpu.isLt offset _
  | writel cpu offset value => exact gicDistWritel_eq s cpu.isLt offset value
  | cpuRead cpu offset => simp only [step, gicStep, gicCpuRead_eq inRange cpu.isLt]
  | cpuWrite cpu offset value => exact gicCpuWrite_eq inRange cpu.isLt offset value

end

end QemuStm32.Gic.Checked
