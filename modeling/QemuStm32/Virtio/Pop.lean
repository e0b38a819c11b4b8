import QemuStm32.Virtio.Ring

/-!
# One call of `virtqueue_pop`

* `virtqueuePop_safe`: whatever the memory holds, the call exits with a message or ends
  within `VIRTQUEUE_MAX_SIZE` descriptors of each kind;
* `collect_chain`: the loop collects the descriptors of a chain in order.
-/

namespace QemuStm32.Virtio

open Runs Words List

/-- The program exits, or ends with a result as described. -/
def Safe {α : Type} (r : Except Stop α) (P : α → Prop) : Prop :=
  match r with
  | .ok a => P a
  | .error (.exit _ _) => True
  | .error (.fault _) => False

variable {α β σ : Type} {r : Except Stop α} {P : α → Prop} {f : α → Except Stop β} {rounds : Nat}
  {d : Device}

theorem Safe.bind {Q : β → Prop} (h : Safe r P) (rest : ∀ a, r = .ok a → P a → Safe (f a) Q) :
    Safe (r >>= f) Q := by
  match r, h with
  | .ok a, h => exact rest a rfl h
  | .error (.exit _ _), _ => trivial

/-- Two programs that begin with the same safe part. -/
theorem Safe.bind_congr {g : α → Except Stop β} (h : Safe r P)
    (rest : ∀ a, r = .ok a → P a → f a = g a) : (r >>= f) = (r >>= g) := by
  match r, h with
  | .ok a, h => exact rest a rfl h
  | .error (.exit _ _), _ => rfl

/-- What fits into the arrays of a `VirtQueueElement`. -/
def VirtQueueElement.Fits (elem : VirtQueueElement) : Prop :=
  elem.inSg.length ≤ virtqueueMaxSize ∧ elem.outSg.length ≤ virtqueueMaxSize

def VirtQueueElement.size (elem : VirtQueueElement) : Nat := elem.inSg.length + elem.outSg.length

section
variable {w : Nat} {mem : Memory} {descPa max i : Nat} {elem : VirtQueueElement}

theorem addDesc_safe (fits : elem.Fits) :
    Safe (addDesc w mem descPa i elem) fun e => e.Fits ∧ e.size = elem.size + 1 := by
  obtain ⟨inFits, outFits⟩ := fits
  unfold addDesc
  dsimp only
  split <;> split <;> try trivial
  all_goals
    rename_i room
    rw [put, if_pos (Nat.lt_of_not_le room)]
    change (_ ≤ _ ∧ _ ≤ _) ∧ _ = _
    simp only [VirtQueueElement.size, length_append, length_singleton]
    omega

theorem virtqueueNextDesc_safe : Safe (virtqueueNextDesc w mem descPa i max) fun _ => True := by
  unfold virtqueueNextDesc
  dsimp only
  split
  · trivial
  · split <;> trivial

theorem VirtQueueElement.Fits.size_le (fits : elem.Fits) : elem.size ≤ 2048 := by
  have inFits : elem.inSg.length ≤ 1024 := fits.1
  have outFits : elem.outSg.length ≤ 1024 := fits.2
  unfold VirtQueueElement.size
  omega

/-- Each round adds a descriptor, so 2049 rounds are never used up. -/
theorem collect_safe (fits : elem.Fits) (enough : 2049 ≤ elem.size + rounds) :
    Safe (collect w mem descPa max rounds i elem) VirtQueueElement.Fits := by
  induction rounds generalizing i elem with
  | zero =>
    have := fits.size_le
    omega
  | succ rounds ih =>
    refine (addDesc_safe fits).bind fun e _ ⟨fits', more⟩ => ?_
    split
    · trivial
    · refine virtqueueNextDesc_safe.bind fun next _ _ => ?_
      split
      · exact fits'
      · exact ih fits' (by omega)

theorem collect_rounds (fits : elem.Fits) {rounds' : Nat} (enough : 2049 ≤ elem.size + rounds)
    (enough' : 2049 ≤ elem.size + rounds') :
    collect w mem descPa max rounds i elem = collect w mem descPa max rounds' i elem := by
  induction rounds generalizing rounds' i elem with
  | zero =>
    have := fits.size_le
    omega
  | succ rounds ih =>
    cases rounds' with
    | zero =>
      have := fits.size_le
      omega
    | succ rounds' =>
      refine (addDesc_safe fits).bind_congr fun e _ ⟨fits', more⟩ => ?_
      split
      · rfl
      · refine virtqueueNextDesc_safe.bind_congr fun next _ _ => ?_
        split
        · rfl
        · exact ih fits' (by omega) (by omega)

theorem virtqueueMapSg_safe (map : Map σ) (isWrite : Bool) (sgs : List Sg) (s : σ) :
    Safe (virtqueueMapSg w map isWrite sgs s) fun r => r.1.length = sgs.length := by
  induction sgs generalizing s with
  | nil => rfl
  | cons sg sgs ih =>
    unfold virtqueueMapSg
    dsimp only
    split
    · trivial
    · exact (ih _).bind fun r _ same => congrArg Nat.succ same

end

theorem virtqueueGetHead_safe {w : Nat} (idx : BitVec 16) (pos : 0 < d.vq.vring.num) :
    Safe (virtqueueGetHead w d idx) fun head => head < d.vq.vring.num := by
  unfold virtqueueGetHead
  rw [if_neg (Nat.ne_of_gt pos)]
  dsimp only
  split
  · trivial
  · rename_i bound
    exact Nat.lt_of_not_le bound

theorem descTable_safe {w : Nat} {mem : Memory} {vring : VRing} {head : Nat} :
    Safe (descTable w mem vring head) fun _ => True := by
  unfold descTable
  split
  · split <;> trivial
  · trivial

theorem empty_fits (head : Nat) : VirtQueueElement.Fits ⟨head, [], []⟩ :=
  ⟨Nat.zero_le _, Nat.zero_le _⟩

/-- A queue without descriptors has no heads that are not refused. -/
theorem virtqueueNumHeads_safe {w : Nat} (idx : BitVec 16) :
    Safe (virtqueueNumHeads w d idx) fun numHeads => numHeads ≠ 0 → 0 < d.vq.vring.num := by
  unfold virtqueueNumHeads
  dsimp only
  split
  · trivial
  · intro some
    omega

theorem virtqueuePop_safe (w : Nat) (map : Map σ) (d : Device) (s : σ) (enough : 2049 ≤ rounds) :
    Safe (virtqueuePop w map rounds d s) fun r => ∀ elem, r.1 = some elem → elem.Fits := by
  refine (virtqueueNumHeads_safe _).bind fun numHeads _ positive => ?_
  split
  · intro elem none
    cases none
  rename_i some
  refine (virtqueueGetHead_safe _ (positive some)).bind fun head _ _ => ?_
  refine descTable_safe.bind fun (descPa, max, i) _ _ => ?_
  refine (collect_safe (empty_fits head) (Nat.le_add_left_of_le enough)).bind fun elem _ fits => ?_
  refine (virtqueueMapSg_safe map true elem.inSg s).bind fun (inSg, s) _ sameIn => ?_
  refine (virtqueueMapSg_safe map false elem.outSg s).bind fun (outSg, s) _ sameOut => ?_
  rintro elem' ⟨⟩
  exact ⟨sameIn.trans_le fits.1, sameOut.trans_le fits.2⟩

theorem virtqueuePop_rounds (w : Nat) (map : Map σ) (d : Device) (s : σ) (enough : 2049 ≤ rounds) :
    virtqueuePop w map rounds d s = virtqueuePop w map 2049 d s := by
  refine (virtqueueNumHeads_safe _).bind_congr fun numHeads _ positive => ?_
  split
  · rfl
  · rename_i some
    refine (virtqueueGetHead_safe _ (positive some)).bind_congr fun head _ _ => ?_
    refine descTable_safe.bind_congr fun (descPa, max, i) _ _ => ?_
    dsimp only
    rw [collect_rounds (empty_fits head) (Nat.le_add_left_of_le enough) (Nat.le_add_left 2049 _)]

/-! ## Chains -/

section
variable (w : Nat) (mem : Memory) (descPa : Nat)

/-- The descriptors of a chain in a table of `max` entries. -/
def Chain (max : Nat) : List Nat → Prop
  | [] => False
  | [i] => vringDescFlags w mem descPa i &&& vringDescFNext = 0
  | i :: j :: l => vringDescFlags w mem descPa i &&& vringDescFNext ≠ 0 ∧
    vringDescNext w mem descPa i = j ∧ j < max ∧ Chain max (j :: l)

instance Chain.decidable (max : Nat) : ∀ l, Decidable (Chain w mem descPa max l)
  | [] => inferInstanceAs (Decidable False)
  | [_] => inferInstanceAs (Decidable (_ = _))
  | _ :: j :: l =>
    have := Chain.decidable max (j :: l)
    inferInstanceAs (Decidable (_ ∧ _ ∧ _ ∧ Chain w mem descPa max (j :: l)))

def writable (i : Nat) : Bool := vringDescFlags w mem descPa i &&& vringDescFWrite != 0

/-- The buffer a descriptor names, before it is mapped. -/
def buffer (i : Nat) : Sg :=
  ⟨phys w (vringDescAddr w mem descPa i), vringDescLen w mem descPa i, none⟩

def inBuffers (chain : List Nat) : List Sg :=
  (chain.filter (writable w mem descPa)).map (buffer w mem descPa)

def outBuffers (chain : List Nat) : List Sg :=
  (chain.filter fun i => !writable w mem descPa i).map (buffer w mem descPa)

end

section
variable {w : Nat} {mem : Memory} {descPa max : Nat}

theorem addDesc_eq (i : Nat) (elem : VirtQueueElement)
    (inRoom : (elem.inSg ++ inBuffers w mem descPa [i]).length ≤ virtqueueMaxSize)
    (outRoom : (elem.outSg ++ outBuffers w mem descPa [i]).length ≤ virtqueueMaxSize) :
    addDesc w mem descPa i elem = .ok { elem with
      inSg := elem.inSg ++ inBuffers w mem descPa [i]
      outSg := elem.outSg ++ outBuffers w mem descPa [i] } := by
  unfold addDesc
  have flag : vringDescFlags w mem descPa i &&& vringDescFWrite ≠ 0 ↔ writable w mem descPa i :=
    bne_iff_ne.symm
  cases write : writable w mem descPa i <;>
    simp only [inBuffers, outBuffers, filter_cons, filter_nil, flag, write, Bool.not_true,
      Bool.not_false, if_true, Bool.false_eq_true, if_false, map_cons, map_nil, append_nil,
      length_append, length_singleton] at inRoom outRoom ⊢ <;>
    rw [if_neg (by omega), put, if_pos (by omega)] <;> rfl

theorem buffers_cons (w : Nat) (mem : Memory) (descPa i : Nat) (l : List Nat) :
    inBuffers w mem descPa (i :: l) = inBuffers w mem descPa [i] ++ inBuffers w mem descPa l ∧
      outBuffers w mem descPa (i :: l) =
        outBuffers w mem descPa [i] ++ outBuffers w mem descPa l := by
  unfold inBuffers outBuffers
  rw [← map_append, ← map_append, ← filter_append, ← filter_append]
  exact ⟨rfl, rfl⟩

theorem buffers_length (w : Nat) (mem : Memory) (descPa : Nat) (l : List Nat) :
    (inBuffers w mem descPa l).length + (outBuffers w mem descPa l).length = l.length := by
  induction l with
  | nil => rfl
  | cons i l ih =>
    unfold inBuffers outBuffers at ih ⊢
    cases h : writable w mem descPa i <;> simp [h] at ih ⊢ <;> omega

/-- The loop collects the descriptors of a chain in order. -/
theorem collect_chain {l : List Nat} : ∀ {i rounds : Nat} {elem : VirtQueueElement},
    Chain w mem descPa max (i :: l) → elem.size + (l.length + 1) ≤ max →
    (elem.inSg ++ inBuffers w mem descPa (i :: l)).length ≤ virtqueueMaxSize →
    (elem.outSg ++ outBuffers w mem descPa (i :: l)).length ≤ virtqueueMaxSize →
    l.length < rounds →
    collect w mem descPa max rounds i elem = .ok { elem with
      inSg := elem.inSg ++ inBuffers w mem descPa (i :: l)
      outSg := elem.outSg ++ outBuffers w mem descPa (i :: l) } := by
  induction l with
  | nil =>
    intro i rounds elem chain short inRoom outRoom enough
    obtain ⟨rounds, rfl⟩ := Nat.exists_eq_succ_of_ne_zero (Nat.ne_of_gt enough)
    have ends : vringDescFlags w mem descPa i &&& vringDescFNext = 0 := chain
    have one := buffers_length w mem descPa [i]
    rw [collect, addDesc_eq i elem inRoom outRoom, ok_bind, if_neg, virtqueueNextDesc,
      if_pos ends, ok_bind, if_pos rfl]
    simp only [VirtQueueElement.size, length_append, length_singleton, length_nil] at short one ⊢
    omega
  | cons j l ih =>
    intro i rounds elem chain short inRoom outRoom enough
    obtain ⟨rounds, rfl⟩ := Nat.exists_eq_succ_of_ne_zero (Nat.ne_zero_of_lt enough)
    obtain ⟨goes, next, bound, rest⟩ := chain
    have one := buffers_length w mem descPa [i]
    obtain ⟨inCons, outCons⟩ := buffers_cons w mem descPa i (j :: l)
    rw [inCons, ← append_assoc] at inRoom ⊢
    rw [outCons, ← append_assoc] at outRoom ⊢
    have inRoom₁ : (elem.inSg ++ inBuffers w mem descPa [i]).length ≤ virtqueueMaxSize := by
      rw [length_append] at inRoom
      omega
    have outRoom₁ : (elem.outSg ++ outBuffers w mem descPa [i]).length ≤ virtqueueMaxSize := by
      rw [length_append] at outRoom
      omega
    simp only [VirtQueueElement.size, length_cons] at short enough
    rw [collect, addDesc_eq i elem inRoom₁ outRoom₁, ok_bind, if_neg, virtqueueNextDesc,
      if_neg goes]
    · rw [next, if_neg (Nat.not_le_of_lt bound), ok_bind, if_neg (Nat.ne_of_lt bound)]
      refine ih rest ?_ inRoom outRoom (Nat.lt_of_succ_lt_succ enough)
      simp only [VirtQueueElement.size, length_append, length_singleton] at one ⊢
      omega
    · simp only [length_append, length_singleton] at one ⊢
      omega

/-- Every buffer can be mapped as a whole. -/
def Mappable {σ : Type} (w : Nat) (map : Map σ) (isWrite : Bool) (sgs : List Sg) : Prop :=
  ∀ sg ∈ sgs, ∀ s, ∃ base s',
    map s sg.addr (phys w sg.iovLen) isWrite = ((some base, sg.iovLen), s')

/-- The address and length of a buffer. -/
def Sg.range (sg : Sg) : Nat × Nat := (sg.addr, sg.iovLen)

theorem virtqueueMapSg_mappable {map : Map σ} {isWrite : Bool} {sgs : List Sg}
    (mappable : Mappable w map isWrite sgs) (s : σ) : ∃ mapped s',
      virtqueueMapSg w map isWrite sgs s = .ok (mapped, s') ∧
        mapped.map Sg.range = sgs.map Sg.range ∧ ∀ sg ∈ mapped, sg.iovBase.isSome := by
  induction sgs generalizing s with
  | nil => exact ⟨[], s, rfl, rfl, nofun⟩
  | cons sg sgs ih =>
    obtain ⟨base, s₁, mapped₁⟩ := mappable sg mem_cons_self s
    obtain ⟨mapped, s₂, rest, same, all⟩ := ih (fun sg mem => mappable sg (.tail _ mem)) s₁
    refine ⟨{ sg with iovBase := some base } :: mapped, s₂, ?_, ?_, ?_⟩
    · unfold virtqueueMapSg
      rw [mapped₁]
      dsimp only
      rw [if_neg (by simp), rest, ok_bind]
    · rw [map_cons, same]
      rfl
    · intro sg' mem
      obtain rfl | mem := mem_cons.mp mem
      · rfl
      · exact all sg' mem

end

end QemuStm32.Virtio
