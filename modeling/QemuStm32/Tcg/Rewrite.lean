import QemuStm32.Tcg.Known
import QemuStm32.Tcg.FoldArith

/-!
# One rewritten operation

For an operation without side effects, the operation that one round of the
optimizer's loop puts in its place writes the same values, and what the
optimizer knows afterwards is true of them (`foldOp_plain`).
-/

namespace QemuStm32.Tcg

open List Runs

/-- An operation that only computes: no side effect, and no label. -/
def Opcode.isPlain (opc : Opcode) : Bool :=
  !(tcgOpDefs opc).sideEffects && decide (opc ≠ .setLabel)

section
variable {World : Type} (host : Host World) {ctx : TCGContext} {temps : Temps}
  {regs : Regs ctx} {world : World}

/-! ## The operations that the optimizer emits -/

theorem plainOp_mov (type : TCGType) (dst src : Nat) :
    plainOp host regs world ⟨.mov type, [dst, src]⟩ =
      (regs.read type src).map (regs.write dst) := by
  have width : (Opcode.mov type).readType = type := by cases type <;> rfl
  change (readAll regs (Opcode.mov type).readType [src]).bind _ = _
  rw [width]
  cases h : regs.read type src with
  | none => simp [readAll, h]
  | some x => simp [readAll, h, computeOp, Regs.writeOuts, Op.outs, Op.nbHead, Op.nbOuts, tcgOpDefs,
      TCGOpDef.plain]

theorem plainOp_movi (type : TCGType) (dst val : Nat) :
    plainOp host regs world ⟨.movi type, [dst, val]⟩ =
      some (regs.write dst (BitVec.ofNat 64 val)) := rfl

variable {opc : Opcode} {g : BitVec 64 → BitVec 64} {rewritten : Except Fault (Temps × Op)}
  {src t a b : Nat} {v : BitVec 64} {f : Binary}

theorem plainOp_unary (one : opc.unaryFn = some g) (dst src : Nat) :
    plainOp host regs world ⟨opc, [dst, src]⟩ =
      (regs.read opc.readType src).map fun x => regs.write dst (g x) := by
  have generic : plainOp host regs world ⟨opc, [dst, src]⟩ =
      (readAll regs opc.readType [src]).bind fun ins =>
        (computeOp host opc ins [] world).map fun outs => regs.writeOuts outs 0 [dst] := by
    cases opc <;> cases one <;> rfl
  have compute x : computeOp host opc [x] [] world = some fun _ => g x := by
    cases opc <;> cases one <;> rfl
  rw [generic]
  cases h : regs.read opc.readType src with
  | none => simp [readAll, h]
  | some x => simp [readAll, h, compute, Regs.writeOuts]

theorem plainOp_binary (f : Binary) (type : TCGType) (dst a b : Nat) :
    plainOp host regs world ⟨.binary f type, [dst, a, b]⟩ =
      ((regs.read type a).bind fun x => (regs.read type b).bind fun y => f.eval x y type).map
        (regs.write dst) := by
  have width : (Opcode.binary f type).readType = type := by cases type <;> rfl
  change (readAll regs (Opcode.binary f type).readType [a, b]).bind _ = _
  rw [width]
  cases ha : regs.read type a with
  | none => simp [readAll, ha]
  | some x =>
    cases hb : regs.read type b with
    | none => simp [readAll, ha, hb]
    | some y =>
      cases hr : f.eval x y type with
      | none => simp [readAll, ha, hb, hr, computeOp]
      | some r => simp [readAll, ha, hb, hr, computeOp, Regs.writeOuts, Op.outs, Op.nbHead,
          Op.nbOuts, tcgOpDefs, TCGOpDef.plain]

/-! ## What a rewriting emits -/

/-- The result of rewriting an operation that gives `dst` the value `value`: an
operation that does the same, and true knowledge after it. -/
def Emits (ctx : TCGContext) (temps : Temps) (dst : Nat) (rewritten : Except Fault (Temps × Op))
    (value : Regs ctx → Option (BitVec 64)) : Prop :=
  ∃ temps' op', rewritten = .ok (temps', op') ∧ Tracked ctx temps' ∧ op'.opc.isPlain = true ∧
    ∀ (regs : Regs ctx) world v, Known ctx temps regs → ¬ HalfCopied ctx temps regs dst →
      value regs = some v → plainOp host regs world op' = some (regs.write dst v) ∧
        Known ctx temps' (regs.write dst v)

variable {host} {op : Op} {dst : Nat} {value : Regs ctx → Option (BitVec 64)}

/-- The value may be computed in another way. -/
theorem Emits.imp {value' : Regs ctx → Option (BitVec 64)}
    (h : Emits host ctx temps dst rewritten value)
    (same : ∀ regs v, Known ctx temps regs → value' regs = some v → value regs = some v) :
    Emits host ctx temps dst rewritten value' := by
  obtain ⟨temps', op', ok, tracked, plain, emitted⟩ := h
  exact ⟨temps', op', ok, tracked, plain, fun regs world v known spared hv =>
    emitted regs world v known spared (same regs v known hv)⟩

section
variable (tracked : Tracked ctx temps)
include tracked

theorem emits_nop
    (same : ∀ regs v, Known ctx temps regs → value regs = some v →
      regs.value dst = some ((ctx.type dst).norm v)) :
    Emits host ctx temps dst (.ok (temps, ⟨.nop, []⟩)) value := by
  refine ⟨_, _, rfl, tracked, rfl, fun regs world v known _ hv => ?_⟩
  rw [write_self (same regs v known hv)]
  exact ⟨rfl, known⟩

theorem emits_mov (ne : dst ≠ src) (notCopy : (temps src).state ≠ .copy)
    (notConst : (temps src).state ≠ .const) (hdst : dst < ctx.nbTemps) (hsrc : src < ctx.nbTemps) :
    Emits host ctx temps dst (tcgOptGenMov ctx temps dst src >>= fun temps =>
      .ok (temps, ⟨.mov (ctx.type dst), [dst, src]⟩))
      (fun regs => regs.read (ctx.type dst) src) := by
  obtain ⟨temps', ok, tracked', known'⟩ := tcgOptGenMov_spec tracked ne notCopy notConst hdst hsrc
  refine ⟨temps', _, by rw [ok]; rfl, tracked', by cases ctx.type dst <;> rfl,
    fun regs world v known spared hv => ⟨?_, known' regs v known spared hv⟩⟩
  rw [plainOp_mov]
  exact congrArg (Option.map (regs.write dst)) hv

theorem emits_movi (op : Opcode) (val : Nat)
    (same : ∀ regs v, Known ctx temps regs → value regs = some v →
      (ctx.type dst).norm v = (ctx.type dst).norm (BitVec.ofNat 64 val)) :
    Emits host ctx temps dst (simplifyToMovi ctx temps op dst val) value := by
  obtain ⟨temps', ok, tracked', known'⟩ := tcgOptGenMovi_spec tracked dst val
  refine ⟨temps', ⟨opToMovi op, [dst, val]⟩, by rw [simplifyToMovi, ok]; rfl, tracked', ?_,
    fun regs world v known spared hv => ⟨?_, ?_⟩⟩
  · cases opBits op <;> rfl
  · rw [opToMovi, plainOp_movi, write_congr (same regs v known hv)]
  · exact known' regs v known spared (same regs v known hv)

theorem emits_keep (plain : op.opc.isPlain = true)
    (same : ∀ (regs : Regs ctx) world,
      plainOp host regs world op = (value regs).map (regs.write dst)) :
    Emits host ctx temps dst (keepOp ctx temps op [dst]) value := by
  obtain ⟨temps', ok, tracked', unknown, known'⟩ := resets_spec tracked [dst]
  refine ⟨temps', op, by rw [keepOp, ok]; rfl, tracked', plain,
    fun regs world v known spared hv => ⟨by rw [same, hv]; rfl, ?_⟩⟩
  apply (known' regs known ⟨spared, fun _ _ => trivial⟩).change tracked'
  intro t ht
  apply write_of_ne
  rintro rfl
  exact ht (unknown t (.inl mem_cons_self))

end

/-! ## Operations whose inputs are propagated -/

/-- An input after copy propagation. -/
structure Input (ctx : TCGContext) (temps : Temps) (type : TCGType) (t : Nat) : Prop where
  notCopy : (temps t).state ≠ .copy
  bound : t < ctx.nbTemps
  constType : (temps t).state = .const → type = .i64 → ctx.type t = .i64

theorem Known.read_const (known : Known ctx temps regs) {type : TCGType}
    (input : Input ctx temps type t) (const : (temps t).state = .const)
    (hv : regs.read type t = some v) : v = type.norm (BitVec.ofNat 64 (temps t).val) := by
  obtain ⟨x, hx, rfl⟩ := Option.map_eq_some_iff.mp hv
  rw [known.const t const x hx, norm_norm_of_le (input.constType const)]

theorem read_norm {type : TCGType} (hv : regs.read type t = some v) : type.norm v = v := by
  obtain ⟨x, _, rfl⟩ := Option.map_eq_some_iff.mp hv
  exact TCGType.norm_norm type x

variable {type : TCGType} {h : HostShift}

theorem foldMov_emits (tracked : Tracked ctx temps) (outType : ctx.type dst = type)
    (hdst : dst < ctx.nbTemps) (input : Input ctx temps type src) :
    Emits host ctx temps dst (foldMov ctx temps type dst src) (fun regs => regs.read type src) := by
  subst outType
  unfold foldMov
  by_cases same : dst = src
  · rw [if_pos (.inr same)]
    apply emits_nop tracked
    intro regs v _ hv
    subst same
    rw [read_norm hv, ← hv, read_own]
  · have other : ¬ (((temps src).state = .copy ∧ (temps src).val = dst) ∨ dst = src) :=
      not_or.mpr ⟨fun h => input.notCopy h.1, same⟩
    rw [if_neg other]
    by_cases const : (temps src).state = .const
    · rw [if_neg (not_not.mpr const)]
      apply emits_movi tracked
      intro regs v known hv
      rw [known.read_const input const hv, TCGType.norm_norm]
    · rw [if_pos const]
      exact emits_mov tracked same input.notCopy const hdst input.bound

theorem foldUnary_emits (tracked : Tracked ctx temps) (one : opc.unaryFn = some g)
    (outType : ctx.type dst = opBits opc) (input : Input ctx temps opc.readType a) :
    Emits host ctx temps dst (foldUnary h ctx temps opc dst a)
      (fun regs => (regs.read opc.readType a).map g) := by
  unfold foldUnary
  by_cases const : (temps a).state = .const
  · rw [if_pos const]
    obtain ⟨res, ok, folded⟩ := doConstantFolding_unary h one (temps a).val
    rw [ok]
    apply emits_movi tracked
    intro regs v known hv
    obtain ⟨x, hx, rfl⟩ := Option.map_eq_some_iff.mp hv
    rw [outType, known.read_const input const hx, ← folded, TCGType.norm_norm]
  · rw [if_neg const]
    apply emits_keep tracked
    · cases opc with
      | unary f type => cases type <;> rfl
      | ext32s | ext32u => rfl
      | _ => cases one
    · intro regs world
      rw [plainOp_unary host one, Option.map_map]
      rfl

/-- The value of an operation with two inputs. -/
def binaryValue (f : Binary) (type : TCGType) (a b : Nat) (regs : Regs ctx) :
    Option (BitVec 64) :=
  (regs.read type a).bind fun x => (regs.read type b).bind fun y => f.eval x y type

theorem binaryValue_eq (hv : binaryValue f type a b regs = some v) :
    ∃ x y, regs.read type a = some x ∧ regs.read type b = some y ∧ f.eval x y type = some v := by
  obtain ⟨x, hx, hv⟩ := Option.bind_eq_some_iff.mp hv
  obtain ⟨y, hy, hv⟩ := Option.bind_eq_some_iff.mp hv
  exact ⟨x, y, hx, hy, hv⟩

theorem isZero_read (known : Known ctx temps regs) {y : BitVec 64} (zero : isZero temps b = true)
    (hy : regs.read type b = some y) : y = 0 := by
  obtain ⟨const, val⟩ := of_decide_eq_true zero
  obtain ⟨x, hx, rfl⟩ := Option.map_eq_some_iff.mp hy
  rw [known.const b const x hx, val]
  cases type <;> cases ctx.type b <;> rfl

section
variable (tracked : Tracked ctx temps)
include tracked

theorem simplifyToMov_emits {same : Bool} (hdst : dst < ctx.nbTemps) (outType : ctx.type dst = type)
    (input : Input ctx temps type a) (notConst : (temps a).state ≠ .const)
    (nothing : same = true → ((temps dst).state = .copy ∧ (temps dst).val = a) ∨ dst = a)
    (something : same = false → dst ≠ a) :
    Emits host ctx temps dst (simplifyToMov ctx temps (.binary f type) dst a same)
      (fun regs => regs.read type a) := by
  subst outType
  unfold simplifyToMov
  cases same with
  | true =>
    apply emits_nop tracked
    intro regs v known hv
    rw [read_norm hv, ← hv, ← read_own]
    obtain ⟨copy, rfl⟩ | rfl := nothing rfl
    · exact (known.copy dst copy _ id).symm
    · rfl
  | false =>
    have bits : opToMov (.binary f (ctx.type dst)) = .mov (ctx.type dst) := by
      cases ctx.type dst <;> rfl
    rw [bits]
    exact emits_mov tracked (something rfl) input.notCopy notConst hdst input.bound

/-- The simplifications that end the round. -/
theorem simplifyBinary_emits (hdst : dst < ctx.nbTemps)
    (outType : ctx.type dst = type) (inA : Input ctx temps type a)
    (distinct : f = .or ∨ f = .and → a = b → (temps a).state ≠ .const)
    {done : Except Fault (Temps × Op)}
    (simplified : simplifyBinary ctx temps f type dst a b = some done) :
    Emits host ctx temps dst done (binaryValue f type a b) := by
  unfold simplifyBinary at simplified
  by_cases neutral : f.zeroNeutral = true
  · rw [if_pos neutral] at simplified
    split at simplified
    · rename_i zero
      cases simplified
      refine (simplifyToMov_emits tracked hdst outType inA zero.1 of_decide_eq_true
        fun no => (not_or.mp (of_decide_eq_false no)).2).imp fun regs v known hv => ?_
      obtain ⟨x, y, hx, hy, hv⟩ := binaryValue_eq hv
      rw [isZero_read known zero.2 hy, eval_zero neutral, read_norm hx] at hv
      rw [hx, hv]
    · cases simplified
  · rw [if_neg neutral] at simplified
    split at simplified
    · rename_i mul
      subst mul
      split at simplified
      · rename_i zero
        cases simplified
        apply emits_movi tracked
        intro regs v known hv
        obtain ⟨x, y, _, hy, hv⟩ := binaryValue_eq hv
        rw [isZero_read known zero hy, eval_mul_zero] at hv
        rw [← Option.some.inj hv]
        rfl
      · cases simplified
    · split at simplified
      · rename_i logical
        split at simplified
        · rename_i equal
          cases simplified
          refine (simplifyToMov_emits tracked hdst outType inA (distinct logical equal)
            (fun yes => .inr (of_decide_eq_true yes).symm)
            fun no => Ne.symm (of_decide_eq_false no)).imp fun regs v known hv => ?_
          subst equal
          obtain ⟨x, y, hx, hy, hv⟩ := binaryValue_eq hv
          obtain rfl : x = y := Option.some.inj (hx.symm.trans hy)
          rw [eval_self logical, read_norm hx] at hv
          rw [hx, hv]
        · cases simplified
      · cases simplified

theorem foldBinary_emits
    (rotates : h.Masks ∨ (Opcode.binary f type).isRotate = false) (hdst : dst < ctx.nbTemps)
    (outType : ctx.type dst = type) (inA : Input ctx temps type a) (inB : Input ctx temps type b)
    (distinct : f = .or ∨ f = .and → a = b → (temps a).state ≠ .const) :
    Emits host ctx temps dst (foldBinary h ctx temps f type dst a b) (binaryValue f type a b) := by
  unfold foldBinary
  dsimp only
  -- the inputs in the order in which the round goes on with them
  generalize hx : (if (f.commutes && decide ((temps a).state = .const)) = true then b else a) = x
  generalize hy : (if (f.commutes && decide ((temps a).state = .const)) = true then a else b) = y
  have ordered : Input ctx temps type x ∧ Input ctx temps type y ∧
      (f = .or ∨ f = .and → x = y → (temps x).state ≠ .const) ∧
      ∀ regs : Regs ctx, binaryValue f type x y regs = binaryValue f type a b regs := by
    by_cases swap : (f.commutes && decide ((temps a).state = .const)) = true
    · rw [if_pos swap] at hx hy
      subst hx hy
      refine ⟨inB, inA, fun logical e => e ▸ distinct logical e.symm, fun regs => ?_⟩
      have comm := (Bool.and_eq_true_iff.mp swap).1
      unfold binaryValue
      cases regs.read type a with
      | none => cases regs.read type b <;> rfl
      | some u =>
        cases regs.read type b with
        | none => rfl
        | some w => exact eval_comm comm w u type
    · rw [if_neg swap] at hx hy
      subst hx hy
      exact ⟨inA, inB, distinct, fun _ => rfl⟩
  obtain ⟨inX, inY, distinct', same⟩ := ordered
  suffices emitted : Emits host ctx temps dst _ (binaryValue f type x y) from
    emitted.imp fun regs v _ hv => (same regs).trans hv
  cases simplified : simplifyBinary ctx temps f type dst x y with
  | some done => exact simplifyBinary_emits tracked hdst outType inX distinct' simplified
  | none =>
    by_cases const : (temps x).state = .const ∧ (temps y).state = .const
    · rw [if_pos const]
      obtain ⟨res, ok, folded⟩ := doConstantFolding_binary rotates (temps x).val (temps y).val
      rw [ok]
      apply emits_movi tracked
      intro regs v known hv
      obtain ⟨u, w, hu, hw, hv⟩ := binaryValue_eq hv
      rw [known.read_const inX const.1 hu, known.read_const inY const.2 hw] at hv
      rw [outType, ← folded v hv, TCGType.norm_norm]
    · rw [if_neg const]
      apply emits_keep tracked
      · cases type <;> rfl
      · exact fun regs world => plainOp_binary host f type dst x y

/-! ## Copy propagation -/

theorem propagate_input (bound : t < ctx.nbTemps)
    (wide : type = .i64 → ctx.type t = .i64) : Input ctx temps type (propagate temps t) := by
  unfold propagate
  split
  · rename_i copy
    have base := tracked.base t copy
    refine ⟨by rw [base]; decide, (tracked.bounds _ (.inr base)).2, fun const => ?_⟩
    cases base.symm.trans const
  · rename_i notCopy
    exact ⟨notCopy, bound, fun _ => wide⟩

end

theorem read_propagate (known : Known ctx temps regs) (wide : type = .i64 → ctx.type t = .i64) :
    regs.read type (propagate temps t) = regs.read type t := by
  unfold propagate
  split
  · rename_i copy
    exact known.copy t copy type wide
  · rfl

/-- Two temporaries that are replaced by the same one are not constants. -/
theorem propagate_distinct (tracked : Tracked ctx temps) (ne : a ≠ b)
    (same : propagate temps a = propagate temps b) :
    (temps (propagate temps a)).state ≠ .const := by
  unfold propagate at same ⊢
  by_cases copyA : (temps a).state = .copy
  · rw [if_pos copyA, tracked.base a copyA]
    decide
  · by_cases copyB : (temps b).state = .copy
    · rw [same, if_pos copyB, tracked.base b copyB]
      decide
    · rw [if_neg copyA, if_neg copyB] at same
      exact absurd same ne

theorem readAll_propagate (known : Known ctx temps regs) {ts : List Nat}
    (wide : type = .i64 → ∀ t ∈ ts, ctx.type t = .i64) :
    readAll regs type (ts.map (propagate temps)) = readAll regs type ts := by
  unfold readAll
  induction ts with
  | nil => rfl
  | cons t ts ih =>
    rw [map_cons, mapM_cons, mapM_cons,
      read_propagate known fun e => wide e t mem_cons_self,
      ih fun e u hu => wide e u (.tail _ hu)]

/-! ## The round -/

/-- The result of a round of the loop, for an operation without side effects. -/
def Simulates (host : Host World) (ctx : TCGContext) (temps : Temps) (op : Op)
    (rewritten : Except Fault (Temps × Op)) : Prop :=
  ∃ temps' op', rewritten = .ok (temps', op') ∧ Tracked ctx temps' ∧ op'.opc.isPlain = true ∧
    ∀ (regs : Regs ctx) world regs', Known ctx temps regs →
      Spares ctx regs op.outs temps → plainOp host regs world op = some regs' →
      plainOp host regs world op' = some regs' ∧ Known ctx temps' regs'

theorem Emits.simulates {rewritten : Except Fault (Temps × Op)}
    (h : Emits host ctx temps dst rewritten value) (out : op.outs = [dst])
    (same : ∀ (regs : Regs ctx) world, Known ctx temps regs →
      plainOp host regs world op = (value regs).map (regs.write dst)) :
    Simulates host ctx temps op rewritten := by
  obtain ⟨temps', op', ok, tracked, plain, emitted⟩ := h
  refine ⟨temps', op', ok, tracked, plain, fun regs world regs' known spared run => ?_⟩
  rw [same regs world known] at run
  obtain ⟨v, hv, rfl⟩ := Option.map_eq_some_iff.mp run
  rw [out] at spared
  exact emitted regs world v known spared.1 hv

/-- An operation the optimizer does not look into: only its inputs are replaced. -/
theorem keepOp_simulates (tracked : Tracked ctx temps) (plain : op.opc.isPlain = true)
    (args : List Nat)
    (same : ∀ (regs : Regs ctx) world, Known ctx temps regs →
      plainOp host regs world ⟨op.opc, args⟩ = plainOp host regs world op)
    (frame : ∀ (regs regs' : Regs ctx) world, plainOp host regs world op = some regs' →
      ∀ t, t ∉ op.outs → regs'.value t = regs.value t) :
    Simulates host ctx temps op (keepOp ctx temps ⟨op.opc, args⟩ op.outs) := by
  obtain ⟨temps', ok, tracked', unknown, known'⟩ := resets_spec tracked op.outs
  refine ⟨temps', ⟨op.opc, args⟩, by rw [keepOp, ok]; rfl, tracked', plain,
    fun regs world regs' known spared run => ⟨(same regs world known).trans run, ?_⟩⟩
  apply (known' regs known spared).change tracked'
  intro t ht
  apply frame regs regs' world run
  exact fun mem => ht (unknown t (.inl mem))

/-- The temporaries that are no output keep their values. -/
theorem plainOp_frame {regs' : Regs ctx} (run : plainOp host regs world op = some regs')
    (ht : t ∉ op.outs) : regs'.value t = regs.value t := by
  unfold plainOp at run
  split at run
  · cases run; rfl
  · cases run; rfl
  · cases run
    simp [Regs.forget, ht]
  · obtain ⟨ins, _, run⟩ := Option.bind_eq_some_iff.mp run
    obtain ⟨outs, _, rfl⟩ := Option.map_eq_some_iff.mp run
    exact writeOuts_of_notMem ht

theorem isPlain_spec (plain : opc.isPlain = true) :
    opc ≠ .call ∧ (tcgOpDefs opc).sideEffects = false ∧ (tcgOpDefs opc).callClobber = false := by
  cases opc <;> first | exact ⟨nofun, rfl, rfl⟩ | cases plain

/-- Copy propagation in an operation without side effects. -/
theorem propagateCopies_args (temps : Temps) (plain : op.opc.isPlain = true)
    (length : op.args.length = op.nbHead + op.nbOuts + op.nbIns + (tcgOpDefs op.opc).nbCargs) :
    (⟨op.opc, propagateCopies temps op⟩ : Op).outs = op.outs ∧
      (⟨op.opc, propagateCopies temps op⟩ : Op).ins = op.ins.map (propagate temps) ∧
      (⟨op.opc, propagateCopies temps op⟩ : Op).consts = op.consts := by
  obtain ⟨notCall, quiet, clobber⟩ := isPlain_spec plain
  have args : propagateCopies temps op = op.outs ++ op.ins.map (propagate temps) ++ op.consts := by
    simp [propagateCopies, quiet, clobber, Op.outs, Op.ins, Op.consts, Op.nbHead, Op.nbOuts,
      Op.nbIns, notCall]
  have nbOuts : op.outs.length = op.nbOuts := by
    simp [Op.outs]
    omega
  have nbIns : (op.ins.map (propagate temps)).length = op.nbIns := by
    simp [Op.ins]
    omega
  have outs : (⟨op.opc, propagateCopies temps op⟩ : Op).nbOuts = op.nbOuts := by
    simp [Op.nbOuts, notCall]
  have ins : (⟨op.opc, propagateCopies temps op⟩ : Op).nbIns = op.nbIns := by
    simp [Op.nbIns, notCall]
  have headP : (⟨op.opc, propagateCopies temps op⟩ : Op).nbHead = 0 := if_neg notCall
  refine ⟨?_, ?_, ?_⟩
  · rw [Op.outs, outs, headP]
    simp only [args, drop_zero, append_assoc]
    rw [← nbOuts, take_left]
  · rw [Op.ins, outs, ins, headP]
    simp only [args, append_assoc, Nat.zero_add]
    rw [← nbOuts, drop_left, ← nbIns, take_left]
  · rw [Op.consts, outs, ins, headP]
    simp only [args, Nat.zero_add]
    rw [← nbOuts, ← nbIns, ← length_append, drop_left]

theorem plainOp_propagate (known : Known ctx temps regs) (wf : op.WellFormed ctx)
    (plain : op.opc.isPlain = true) :
    plainOp host regs world ⟨op.opc, propagateCopies temps op⟩ = plainOp host regs world op := by
  obtain ⟨outs, ins, consts⟩ := propagateCopies_args temps plain wf.length
  have reads : readAll regs op.opc.readType (op.ins.map (propagate temps)) =
      readAll regs op.opc.readType op.ins :=
    readAll_propagate known (wf.inType (isPlain_spec plain).2.1)
  unfold plainOp
  rw [outs, ins, consts]
  dsimp only
  split <;> first | rfl | rw [reads]

/-- The operations of the last case of the `switch`. -/
theorem foldOp_default (tracked : Tracked ctx temps) (wf : op.WellFormed ctx)
    (plain : op.opc.isPlain = true)
    (default : foldOp h ctx temps op = keepOp ctx temps ⟨op.opc, propagateCopies temps op⟩
      ((propagateCopies temps op).take (tcgOpDefs op.opc).nbOargs)) :
    Simulates host ctx temps op (foldOp h ctx temps op) := by
  have notCall := (isPlain_spec plain).1
  have outs : (propagateCopies temps op).take (tcgOpDefs op.opc).nbOargs = op.outs := by
    rw [← (propagateCopies_args temps plain wf.length).1]
    simp [Op.outs, Op.nbHead, Op.nbOuts, notCall]
  rw [default, outs]
  apply keepOp_simulates tracked plain
  · exact fun regs world known => plainOp_propagate known wf plain
  · exact fun regs regs' world run t ht => plainOp_frame run ht

theorem foldOp_unary (tracked : Tracked ctx temps) (wf : Op.WellFormed ctx ⟨opc, [dst, a]⟩)
    (one : opc.unaryFn = some g) :
    Simulates host ctx temps ⟨opc, [dst, a]⟩
      (foldUnary h ctx temps opc dst (propagate temps a)) := by
  have shape : Op.outs ⟨opc, [dst, a]⟩ = [dst] ∧ Op.ins ⟨opc, [dst, a]⟩ = [a] ∧
      (tcgOpDefs opc).sideEffects = false := by
    cases opc <;> cases one <;> exact ⟨rfl, rfl, rfl⟩
  have outType : ctx.type dst = opBits opc := by
    cases opc with
    | unary f type => exact (wf.outType dst mem_cons_self).trans (by cases type <;> rfl)
    | ext32s | ext32u => exact wf.outType dst mem_cons_self
    | _ => cases one
  have wide : opc.readType = .i64 → ctx.type a = .i64 := by
    intro e
    apply wf.inType shape.2.2 e
    rw [shape.2.1]
    exact mem_cons_self
  have bound : a < ctx.nbTemps := by
    apply wf.temps
    rw [shape.2.1]
    simp
  apply (foldUnary_emits tracked one outType (propagate_input tracked bound wide)).simulates
  · exact shape.1
  · intro regs world known
    rw [plainOp_unary host one, read_propagate known wide, Option.map_map]
    rfl

/-- One round of the loop on an operation without side effects. -/
theorem foldOp_plain (tracked : Tracked ctx temps) (wf : op.WellFormed ctx)
    (plain : op.opc.isPlain = true) (rotates : h.Masks ∨ op.opc.isRotate = false) :
    Simulates host ctx temps op (foldOp h ctx temps op) := by
  obtain ⟨opc, args⟩ := op
  have length := wf.length
  cases opc with
  | mov type =>
    obtain ⟨dst, src, rfl⟩ := length_eq_two.mp length
    have outType : ctx.type dst = type := wf.outType dst mem_cons_self
    have width : (Opcode.mov type).readType = type := by cases type <;> rfl
    have wide : type = .i64 → ctx.type src = .i64 :=
      fun e => wf.inType rfl (width.trans e) src mem_cons_self
    have bound : ∀ t ∈ [dst, src], t < ctx.nbTemps := wf.temps
    apply (foldMov_emits tracked outType (bound dst (by simp))
      (propagate_input tracked (bound src (by simp)) wide)).simulates rfl
    intro regs world known
    rw [plainOp_mov, read_propagate known wide]
  | movi type =>
    obtain ⟨dst, val, rfl⟩ := length_eq_two.mp length
    have emitted : Emits host ctx temps dst (simplifyToMovi ctx temps (.movi type) dst val)
        fun _ => some (BitVec.ofNat 64 val) :=
      emits_movi tracked _ val fun regs v _ hv => by rw [← Option.some.inj hv]
    exact emitted.simulates rfl fun regs world _ => rfl
  | unary f type | ext32s | ext32u =>
    obtain ⟨dst, a, rfl⟩ := length_eq_two.mp length
    exact foldOp_unary tracked wf rfl
  | binary f type =>
    obtain ⟨dst, a, b, rfl⟩ := length_eq_three.mp length
    have ins : Op.ins ⟨.binary f type, [dst, a, b]⟩ = [a, b] := rfl
    have outType : ctx.type dst = type := wf.outType dst mem_cons_self
    have width : (Opcode.binary f type).readType = type := by cases type <;> rfl
    have wide : ∀ t ∈ [a, b], type = .i64 → ctx.type t = .i64 :=
      fun t ht e => wf.inType rfl (width.trans e) t ht
    have bound : ∀ t ∈ [dst, a, b], t < ctx.nbTemps := wf.temps
    have distinct : f = .or ∨ f = .and → propagate temps a = propagate temps b →
        (temps (propagate temps a)).state ≠ .const := by
      intro logical
      have nodup := wf.distinct f type rfl logical.symm
      rw [ins] at nodup
      exact propagate_distinct tracked fun e => by simp [e] at nodup
    apply (foldBinary_emits tracked rotates (bound dst (by simp)) outType
      (propagate_input tracked (bound a (by simp)) (wide a (by simp)))
      (propagate_input tracked (bound b (by simp)) (wide b (by simp))) distinct).simulates
      rfl
    intro regs world known
    rw [plainOp_binary, binaryValue, read_propagate known (wide a (by simp)),
      read_propagate known (wide b (by simp))]
  | _ => first | exact foldOp_default tracked wf plain rfl | cases plain

end

end QemuStm32.Tcg
