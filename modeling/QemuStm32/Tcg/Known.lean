import QemuStm32.Tcg.Links
import QemuStm32.Tcg.Semantics
import QemuStm32.Lib.Runs

/-!
# What the optimizer knows is true

`Known ctx temps regs`: every constant and every copy that `temps` records
holds of the values `regs`. A copy is as good as the temporary it is
substituted for: it reads the same in every type in which that one is read.

The one step that can break this is `reset_temp` on a representative: if the
next representative has 32 bits and the value has more, the 64-bit copies do
not read the same (`HalfCopied`).
-/

namespace QemuStm32.Tcg

open Runs

structure Known (ctx : TCGContext) (temps : Temps) (regs : Regs ctx) : Prop where
  const : ∀ t, (temps t).state = .const → ∀ x, regs.value t = some x →
    x = (ctx.type t).norm (BitVec.ofNat 64 (temps t).val)
  copy : ∀ t, (temps t).state = .copy → ∀ type : TCGType, (type = .i64 → ctx.type t = .i64) →
    regs.read type (temps t).val = regs.read type t

theorem cleared_known {ctx : TCGContext} (regs : Regs ctx) : Known ctx .cleared regs :=
  ⟨nofun, nofun⟩

/-- `x` represents a ring with a 64-bit copy, its value does not fit in 32 bits, and the
member after it, which `reset_temp` makes the next representative, has 32 bits. -/
def HalfCopied (ctx : TCGContext) (temps : Temps) (regs : Regs ctx) (x : Nat) : Prop :=
  (temps x).state = .hasCopy ∧ ctx.type (temps x).nextCopy = .i32 ∧
    (∃ t, t < ctx.nbTemps ∧ (temps t).state = .copy ∧ (temps t).val = x ∧ ctx.type t = .i64) ∧
    TCGType.i32.norm ((regs.value x).getD 0) ≠ (regs.value x).getD 0

instance (ctx : TCGContext) (temps : Temps) (regs : Regs ctx) (x : Nat) :
    Decidable (HalfCopied ctx temps regs x) := by
  unfold HalfCopied
  infer_instance

/-- When the temporaries are reset one after the other, none is such a representative. -/
def Spares (ctx : TCGContext) (regs : Regs ctx) : List Nat → Temps → Prop
  | [], _ => True
  | x :: xs, temps => ¬ HalfCopied ctx temps regs x ∧
      ∀ temps' ∈ (resetTemp ctx temps x).toOption, Spares ctx regs xs temps'

instance Spares.decidable (ctx : TCGContext) (regs : Regs ctx) :
    ∀ xs temps, Decidable (Spares ctx regs xs temps)
  | [], _ => .isTrue trivial
  | x :: xs, temps =>
    haveI := Spares.decidable ctx regs xs
    inferInstanceAs (Decidable (¬ HalfCopied ctx temps regs x ∧
      ∀ temps' ∈ (resetTemp ctx temps x).toOption, Spares ctx regs xs temps'))

/-- Neither a constant nor in a ring. -/
def Unknown (temps : Temps) (t : Nat) : Prop :=
  (temps t).state ≠ .const ∧ ¬ Member temps t

/-! ## Reading -/

theorem norm_norm_of_le {narrow wide : TCGType} (le : narrow = .i64 → wide = .i64)
    (x : BitVec 64) : narrow.norm (wide.norm x) = narrow.norm x := by
  cases wide with
  | i64 => rfl
  | i32 =>
    cases narrow with
    | i32 => exact TCGType.norm_norm .i32 x
    | i64 => cases le rfl

section
variable {ctx : TCGContext} {temps temps' : Temps} {regs regs' : Regs ctx} {x t : Nat}

theorem read_i64 (regs : Regs ctx) (t : Nat) : regs.read .i64 t = regs.value t := by
  unfold Regs.read
  cases regs.value t with
  | none | some x => rfl

theorem read_own (regs : Regs ctx) (t : Nat) : regs.read (ctx.type t) t = regs.value t := by
  unfold Regs.read
  cases h : regs.value t with
  | none => rfl
  | some x => exact congrArg some (regs.narrow t x h)

theorem read_congr (same : regs'.value t = regs.value t) (type : TCGType) :
    regs'.read type t = regs.read type t := by
  unfold Regs.read
  rw [same]

theorem write_value (regs : Regs ctx) (t : Nat) (x : BitVec 64) :
    (regs.write t x).value t = some ((ctx.type t).norm x) := Function.update_self ..

theorem write_of_ne (regs : Regs ctx) {t u : Nat} (x : BitVec 64) (ne : u ≠ t) :
    (regs.write t x).value u = regs.value u := Function.update_of_ne ne ..

/-- Writing what is there. -/
theorem write_self {v : BitVec 64} (h : regs.value t = some ((ctx.type t).norm v)) :
    regs.write t v = regs := by
  apply Regs.ext
  change Function.update regs.value t (some ((ctx.type t).norm v)) = regs.value
  rw [← h]
  exact Function.update_eq_self ..

theorem write_congr {v w : BitVec 64} (same : (ctx.type t).norm v = (ctx.type t).norm w) :
    regs.write t v = regs.write t w := by
  simp only [Regs.write, same]

theorem writeOuts_of_notMem {outs : Nat → BitVec 64} {i : Nat} {ts : List Nat}
    (notMem : t ∉ ts) : (regs.writeOuts outs i ts).value t = regs.value t := by
  induction ts generalizing i regs with
  | nil => rfl
  | cons u ts ih =>
    rw [List.mem_cons, not_or] at notMem
    rw [Regs.writeOuts, ih notMem.2, write_of_ne _ _ notMem.1]

/-! ## Resetting -/

/-- What is known stays true when a temporary is reset, unless that makes a 32-bit
temporary stand for a 64-bit one that needs all its bits. -/
theorem Known.reset (h : Known ctx temps regs) (tracked : Tracked ctx temps)
    (reset : Reset temps x temps') (spared : ¬ HalfCopied ctx temps regs x) :
    Known ctx temps' regs := by
  constructor
  · intro t ht v hv
    obtain ⟨old, same⟩ := reset.const t ht
    rw [same]
    exact h.const t old v hv
  intro t ht type fits
  obtain ⟨old, same | ⟨tVal, named, bCopy, bVal⟩⟩ := reset.copy t ht
  · rw [same]
    exact h.copy t old type fits
  rw [named]
  generalize next : (temps x).nextCopy = b at bCopy bVal
  have tx := h.copy t old type fits
  rw [tVal] at tx
  by_cases fitsB : type = .i64 → ctx.type b = .i64
  · have bx := h.copy b bCopy type fitsB
    rw [bVal] at bx
    exact bx.symm.trans tx
  -- `b` has 32 bits and is read as 64
  obtain ⟨rfl, narrowB⟩ := Classical.not_imp.mp fitsB
  have typeB : ctx.type b = .i32 := by
    cases hb : ctx.type b with
    | i32 => rfl
    | i64 => exact absurd hb narrowB
  have low : regs.value b = regs.read .i32 x := by
    have bx := h.copy b bCopy .i32 nofun
    have own := read_own regs b
    rw [typeB] at own
    rw [← own, ← bx, bVal]
  rw [read_i64, read_i64] at tx ⊢
  rw [← tx, low]
  unfold Regs.read
  cases hv : regs.value x with
  | none => rfl
  | some v =>
    apply congrArg some
    by_contra wide
    have hasCopy := tracked.base t old
    rw [tVal] at hasCopy
    apply spared
    exact ⟨hasCopy, by rw [next, typeB],
      ⟨t, (tracked.bounds t (.inl old)).2, old, tVal, fits rfl⟩, by rw [hv]; exact wide⟩

theorem Reset.unknown_self (reset : Reset temps x temps') : Unknown temps' x := by
  unfold Unknown Member
  rw [reset.free]
  decide

theorem Reset.unknown (reset : Reset temps x temps') (h : Unknown temps t) : Unknown temps' t :=
  ⟨fun const => h.1 (reset.const t const).1, fun member => h.2 (reset.member t member)⟩

/-- Values may change where nothing is known. -/
theorem Known.change (h : Known ctx temps regs) (tracked : Tracked ctx temps)
    (same : ∀ t, ¬ Unknown temps t → regs'.value t = regs.value t) : Known ctx temps regs' := by
  have member : ∀ t, Member temps t → regs'.value t = regs.value t :=
    fun t ht => same t fun unknown => unknown.2 ht
  constructor
  · intro t ht x hx
    rw [same t fun unknown => unknown.1 ht] at hx
    exact h.const t ht x hx
  · intro t ht type fits
    rw [read_congr (member t (.inl ht)), read_congr (member _ (.inr (tracked.base t ht)))]
    exact h.copy t ht type fits

/-- A temporary that is reset may be written. -/
theorem Known.overwrite (h : Known ctx temps regs) (tracked : Tracked ctx temps)
    (reset : Reset temps x temps') (tracked' : Tracked ctx temps')
    (spared : ¬ HalfCopied ctx temps regs x) (v : BitVec 64) : Known ctx temps' (regs.write x v) :=
  (h.reset tracked reset spared).change tracked'
    fun _ ht => write_of_ne regs v fun e => ht (e ▸ reset.unknown_self)

theorem endBlock_lost (global : ctx.nbGlobals ≤ t) (normal : ctx.isLocal t = false) :
    regs.endBlock.value t = none := by
  simp [Regs.endBlock, Regs.forget, global, normal]

theorem endBlock_kept (kept : ctx.isLocal t = true) : regs.endBlock.value t = regs.value t := by
  simp [Regs.endBlock, Regs.forget, kept]

/-- The end of a basic block: the members of a ring are lost together. -/
theorem Known.endBlock (h : Known ctx temps regs) (tracked : Tracked ctx temps) :
    Known ctx temps regs.endBlock := by
  constructor
  · intro t ht x hx
    simp only [Regs.endBlock, Regs.forget] at hx
    split at hx
    · cases hx
    · exact h.const t ht x hx
  · intro t ht type fits
    have own := h.copy t ht type fits
    have tBound := (tracked.bounds t (.inl ht)).1
    have valBound := (tracked.bounds _ (.inr (tracked.base t ht))).1
    have locality := tracked.locality t ht
    unfold Regs.read at own ⊢
    cases hl : ctx.isLocal t with
    | false =>
      rw [endBlock_lost tBound hl, endBlock_lost valBound (locality ▸ hl)]
    | true =>
      rw [endBlock_kept hl, endBlock_kept (locality ▸ hl)]
      exact own

/-- The reset of all outputs of an operation. -/
theorem resets_spec (tracked : Tracked ctx temps) (outs : List Nat) :
    ∃ temps', outs.foldlM (resetTemp ctx) temps = .ok temps' ∧ Tracked ctx temps' ∧
      (∀ t, t ∈ outs ∨ Unknown temps t → Unknown temps' t) ∧
      ∀ regs : Regs ctx, Known ctx temps regs → Spares ctx regs outs temps →
        Known ctx temps' regs := by
  induction outs generalizing temps with
  | nil =>
    refine ⟨temps, rfl, tracked, fun t ht => ?_, fun regs known _ => known⟩
    exact ht.resolve_left List.not_mem_nil
  | cons x outs ih =>
    obtain ⟨mid, hmid, trackedMid, reset⟩ := resetTemp_spec tracked x
    obtain ⟨temps', htemps', tracked', unknown, known'⟩ := ih trackedMid
    refine ⟨temps', ?_, tracked', fun t ht => ?_, fun regs known spared => ?_⟩
    · rw [List.foldlM_cons, hmid]
      exact htemps'
    · apply unknown
      obtain mem | old := ht
      · obtain rfl | mem := List.mem_cons.mp mem
        · exact .inr reset.unknown_self
        · exact .inl mem
      · exact .inr (reset.unknown old)
    · apply known' regs (known.reset tracked reset spared.1)
      exact spared.2 mid (by rw [hmid]; rfl)

/-! ## Moves -/

theorem tcgOptGenMovi_spec (tracked : Tracked ctx temps) (dst val : Nat) :
    ∃ temps', tcgOptGenMovi ctx temps dst val = .ok temps' ∧ Tracked ctx temps' ∧
      ∀ (regs : Regs ctx) (v : BitVec 64), Known ctx temps regs → ¬ HalfCopied ctx temps regs dst →
        (ctx.type dst).norm v = (ctx.type dst).norm (BitVec.ofNat 64 val) →
        Known ctx temps' (regs.write dst v) := by
  obtain ⟨mid, hmid, trackedMid, reset⟩ := resetTemp_spec tracked dst
  unfold tcgOptGenMovi
  rw [hmid]
  refine ⟨_, rfl, ?_, fun regs v known spared value => ?_⟩
  · apply trackedMid.change_idle reset.unknown_self.2
    · simp [Member]
    · intro t ht
      simp [Temps.setVal, Temps.setState, ht]
  have known' := known.overwrite tracked reset trackedMid spared v
  constructor
  · intro t ht x hx
    by_cases htd : t = dst
    · subst htd
      rw [write_value] at hx
      simp only [setVal_val, if_true]
      rw [← Option.some.inj hx, value]
    · simp only [setVal_state, setState_state, setVal_val, setState_val, if_neg htd] at ht ⊢
      exact known'.const t ht x hx
  · intro t ht type fits
    have htd : t ≠ dst := by
      rintro rfl
      simp at ht
    simp only [setVal_state, setState_state, setVal_val, setState_val, if_neg htd] at ht ⊢
    exact known'.copy t ht type fits

theorem tcgOptGenMov_spec (tracked : Tracked ctx temps) {dst src : Nat} (ne : dst ≠ src)
    (notCopy : (temps src).state ≠ .copy) (notConst : (temps src).state ≠ .const)
    (hdst : dst < ctx.nbTemps) (hsrc : src < ctx.nbTemps) :
    ∃ temps', tcgOptGenMov ctx temps dst src = .ok temps' ∧ Tracked ctx temps' ∧
      ∀ (regs : Regs ctx) (v : BitVec 64), Known ctx temps regs → ¬ HalfCopied ctx temps regs dst →
        regs.read (ctx.type dst) src = some v → Known ctx temps' (regs.write dst v) := by
  obtain ⟨mid, hmid, trackedMid, reset⟩ := resetTemp_spec tracked dst
  have notCopyMid : (mid src).state ≠ .copy := fun copy => notCopy (reset.copy src copy).1
  have notConstMid : (mid src).state ≠ .const := fun const => notConst (reset.const src const).1
  unfold tcgOptGenMov
  rw [hmid]
  dsimp only [Bind.bind, Except.bind]
  rw [if_neg notCopyMid, if_neg notConstMid]
  by_cases both : copyable ctx dst src = true
  · rw [if_pos both]
    simp only [copyable, Bool.and_eq_true, decide_eq_true_eq, beq_iff_eq] at both
    obtain ⟨⟨srcGlobal, dstGlobal⟩, locality⟩ := both
    have learned : Learned mid dst src _ := linkCopy_learned ne
    refine ⟨_, rfl, linkCopy_tracked trackedMid ne reset.unknown_self.2 notCopyMid
      ⟨srcGlobal, hsrc⟩ ⟨dstGlobal, hdst⟩ locality.symm, fun regs v known spared value => ?_⟩
    have known' := known.overwrite tracked reset trackedMid spared v
    constructor
    · intro t ht x hx
      obtain ⟨old, same⟩ := learned.const t ht
      rw [same]
      exact known'.const t old x hx
    · intro t ht type fits
      obtain ⟨rfl, named⟩ | ⟨old, same⟩ := learned.copy t ht
      · obtain ⟨w, hw, rfl⟩ := Option.map_eq_some_iff.mp value
        rw [named]
        unfold Regs.read
        rw [write_value, write_of_ne _ _ (Ne.symm ne), hw]
        simp only [Option.map_some, norm_norm_of_le fits]
      · rw [same]
        exact known'.copy t old type fits
  · rw [if_neg both]
    exact ⟨mid, rfl, trackedMid, fun regs v known spared _ =>
      known.overwrite tracked reset trackedMid spared v⟩

end

end QemuStm32.Tcg
