import QemuStm32.Tcg.LiveRuns

/-!
# What `op_dead_args` says

A bit of `op_dead_args` stands for an output or an input, in this order. An output
with its bit set is not read again; an input with its bit set is not read after the
operation (`deadArgs_sound`), as long as the outputs are distinct. If the same
temporary is an output twice, the second bit is set whatever follows
(`repeated_output`).
-/

namespace QemuStm32.Tcg

open List Runs

/-! ## Reads -/

instance (ctx : TCGContext) (t : Nat) : Decidable (Survives ctx t) :=
  inferInstanceAs (Decidable (_ ∨ _ ∧ _))

/-- The operation reads the temporary, as an input or because it uses the globals. -/
def Op.reads (ctx : TCGContext) (op : Op) (t : Nat) : Bool :=
  decide (t ∈ op.inputs) || readsGlobals op.opc op.consts && decide (t < ctx.nbGlobals)

/-- The value is read before it is overwritten. What survives the end of a basic block
counts as read there; past the last operation nothing is read. -/
def readAgain (ctx : TCGContext) : List Op → Nat → Bool
  | [], _ => false
  | op :: ops, t =>
    op.reads ctx t ||
      if op.opc.endsBlock then decide (Survives ctx t)
      else !decide (t ∈ op.outs) && readAgain ctx ops t

/-- The value of an input is not read after the operation: it is overwritten, its life
ends with the block, or no operation reads it again. -/
def Op.lastRead (ctx : TCGContext) (op : Op) (ops : List Op) (t : Nat) : Prop :=
  if op.opc.endsBlock then ¬ Survives ctx t
  else t ∈ op.outs ∨ readAgain ctx ops t = false

variable {n t j : Nat} {ops : List Op} {bits : BitVec 32} {outs ins : List Nat}

section
variable {ctx : TCGContext} {op : Op} {dead : DeadTemps} {is : List Instr} {i : Instr}

theorem readAgain_nop (nop : op.opc = .nop) (t : Nat) :
    readAgain ctx (op :: ops) t = readAgain ctx ops t := by
  simp [readAgain, Op.reads, readsGlobals, Op.inputs, Op.ins, Op.outs, Op.nbIns, Op.nbOuts, nop,
    tcgOpDefs, TCGOpDef.plain, Opcode.endsBlock, Opcode.bbEnd]

theorem readAgain_kept (after : dead t = true → readAgain ctx ops t = false)
    (before : op.deadBefore ctx dead t = true) : readAgain ctx (op :: ops) t = false := by
  have notIn : t ∉ op.inputs := by
    intro mem
    rw [deadBefore_read mem] at before
    cases before
  have notRead : op.reads ctx t = false := by
    unfold Op.reads
    rw [decide_eq_false notIn, Bool.false_or, Bool.and_eq_false_iff]
    by_contra both
    rw [not_or, Bool.not_eq_false, Bool.not_eq_false, decide_eq_true_eq] at both
    rw [deadBefore_global both.1 both.2] at before
    cases before
  rw [readAgain, notRead, Bool.false_or]
  split
  · rename_i ends
    rw [decide_eq_false_iff_not]
    intro survives
    rw [deadBefore_survives ends survives] at before
    cases before
  · rename_i inside
    rw [Bool.and_eq_false_iff, Bool.not_eq_false', decide_eq_true_eq]
    by_contra both
    rw [not_or] at both
    have live : dead t = false := by
      cases h : dead t with
      | false => rfl
      | true => exact absurd (after h) both.2
    rw [deadBefore_kept (by simpa using inside) both.1 live] at before
    cases before

/-- What is dead is not read again. -/
theorem readAgain_of_dead
    (isDead : deadBefore ctx is (fun _ => true) t = true) :
    readAgain ctx ((analysed ctx is fun _ => true).map Instr.toOp) t = false := by
  induction is with
  | nil => rfl
  | cons i is ih =>
    rw [deadBefore] at isDead
    rw [analysed, map_cons]
    obtain ⟨nop, same, -⟩ | ⟨kept, same⟩ := after_spec ctx i
      (deadBefore ctx is fun _ => true)
    · rw [same] at isDead
      rw [readAgain_nop nop]
      exact ih isDead
    · rw [same] at isDead
      rw [kept]
      exact readAgain_kept ih isDead

/-! ## Bits -/

theorem getLsbD_mark (set : (bits ||| 1#32 <<< n).getLsbD j = true) :
    bits.getLsbD j = true ∨ j = n := by
  rw [BitVec.getLsbD_or, Bool.or_eq_true] at set
  refine set.imp_right fun shifted => ?_
  simp only [BitVec.getLsbD_shiftLeft, BitVec.getLsbD_one, Bool.and_eq_true, Bool.not_eq_true',
    decide_eq_true_eq, decide_eq_false_iff_not] at shifted
  omega

theorem deadOuts_bit (distinct : outs.Nodup)
    (set : (deadOuts n outs bits dead).1.getLsbD j = true) :
    bits.getLsbD j = true ∨ ∃ k t, j = n + k ∧ outs[k]? = some t ∧ dead t = true := by
  induction outs generalizing n bits dead with
  | nil => exact .inl set
  | cons u outs ih =>
    rw [nodup_cons] at distinct
    obtain old | ⟨k, t, rfl, at_, isDead⟩ := ih distinct.2 set
    · split at old
      · rename_i isDead
        obtain old | rfl := getLsbD_mark old
        · exact .inl old
        · exact .inr ⟨0, u, rfl, rfl, isDead⟩
      · exact .inl old
    · have ne : t ≠ u := fun e => distinct.1 (e ▸ mem_of_getElem? at_)
      rw [Function.update_of_ne ne] at isDead
      exact .inr ⟨k + 1, t, by omega, at_, isDead⟩

theorem liveIns_bit (set : (liveIns n ins bits dead).1.getLsbD j = true) :
    bits.getLsbD j = true ∨ ∃ k t, j = n + k ∧ ins[k]? = some t ∧ dead t = true := by
  induction ins generalizing n bits dead with
  | nil => exact .inl set
  | cons u ins ih =>
    rw [liveIns] at set
    split at set
    · obtain old | ⟨k, t, rfl, at_, isDead⟩ := ih set
      · exact .inl old
      · exact .inr ⟨k + 1, t, by omega, at_, isDead⟩
    obtain old | ⟨k, t, rfl, at_, isDead⟩ := ih set
    · split at old
      · rename_i isDead
        obtain old | rfl := getLsbD_mark old
        · exact .inl old
        · exact .inr ⟨0, u, rfl, rfl, isDead⟩
      · exact .inl old
    · have ne : t ≠ u := by
        rintro rfl
        rw [Function.update_self] at isDead
        cases isDead
      rw [Function.update_of_ne ne] at isDead
      exact .inr ⟨k + 1, t, by omega, at_, isDead⟩

/-- A bit is that of an output that is dead after the operation, or of an input that is
dead when the outputs are. -/
theorem keptRound_bit {opc : GenOpcode} {args : List Nat} (distinct : outs.Nodup)
    {between : DeadTemps → DeadTemps} {bits : BitVec 16}
    (stored : (keptRound opc args outs ins between dead).deadArgs = some bits)
    (set : bits.getLsbD j = true) :
    (∃ t, outs[j]? = some t ∧ dead t = true) ∨
      ∃ k t, j = outs.length + k ∧ ins[k]? = some t ∧
        between (fun t => decide (t ∈ outs) || dead t) t = true := by
  have outputs : (deadOuts 0 outs 0 dead).2 = fun t => decide (t ∈ outs) || dead t :=
    funext (deadOuts_dead 0 outs 0 dead)
  cases stored
  rw [BitVec.getLsbD_setWidth, Bool.and_eq_true] at set
  obtain output | input := liveIns_bit set.2
  · obtain old | ⟨k, t, rfl, at_, isDead⟩ := deadOuts_bit distinct output
    · simp at old
    · rw [Nat.zero_add]
      exact .inl ⟨t, at_, isDead⟩
  · rw [outputs] at input
    exact .inr input

theorem lastRead_of_between (after : dead t = true → readAgain ctx ops t = false)
    (isDead : op.between ctx (fun t => decide (t ∈ op.outs) || dead t) t = true) :
    op.lastRead ctx ops t := by
  have overwritten : (decide (t ∈ op.outs) || dead t) = true →
      t ∈ op.outs ∨ readAgain ctx ops t = false := by
    rw [Bool.or_eq_true, decide_eq_true_eq]
    exact Or.imp_right after
  unfold Op.between at isDead
  unfold Op.lastRead
  split at isDead
  · rename_i ends
    rw [if_pos ends]
    rintro (global | ⟨bound, kept⟩)
    · simp [tcgLaBbEnd, global] at isDead
    · by_cases global : t < ctx.nbGlobals
      · simp [tcgLaBbEnd, global] at isDead
      · simp [tcgLaBbEnd, global, bound, kept] at isDead
  · rename_i inside
    rw [if_neg inside]
    split at isDead
    · simp only [globalsLive] at isDead
      split at isDead
      · cases isDead
      · exact overwritten isDead
    · exact overwritten isDead

end

/-- Every bit belongs to an argument of its operation that is not read any more. -/
def DeadArgsSound (ctx : TCGContext) (ops : List Op)
    (deadArgs : List (Option (BitVec 16))) : Prop :=
  ∀ (n : Nat) (op : Op) (bits : BitVec 16) (j : Nat), ops[n]? = some op → op.outs.Nodup →
    deadArgs[n]? = some (some bits) → bits.getLsbD j = true →
      (∃ t, op.outs[j]? = some t ∧ readAgain ctx (ops.drop (n + 1)) t = false) ∨
        ∃ k t, j = op.outs.length + k ∧ op.ins[k]? = some t ∧
          op.lastRead ctx (ops.drop (n + 1)) t

section
variable {ctx : TCGContext} {is : List Instr}

theorem analysed_drop (n : Nat) (dead : DeadTemps) :
    (analysed ctx is dead).drop n = analysed ctx (is.drop n) dead := by
  induction is generalizing n with
  | nil => simp [analysed]
  | cons i is ih =>
    cases n with
    | zero => rfl
    | succ n => exact ih n

theorem analysed_fetch {dead : DeadTemps} {op : Op}
    (fetch : ((analysed ctx is dead).map Instr.toOp)[n]? = some op) :
    ∃ i, is[n]? = some i ∧ op = (i.after ctx (deadBefore ctx (is.drop (n + 1)) dead)).toOp := by
  induction is generalizing n with
  | nil => cases fetch
  | cons i is ih =>
    cases n with
    | zero => exact ⟨i, rfl, (Option.some.inj fetch).symm⟩
    | succ n => exact ih fetch

theorem deadArgs_sound (is : List Instr) :
    DeadArgsSound ctx ((analysed ctx is fun _ => true).map Instr.toOp)
      (deadArgsOf ctx is (fun _ => true) ++ [none]) := by
  intro n op bits j fetch distinct stored set
  obtain ⟨i, at_, rfl⟩ := analysed_fetch fetch
  obtain ⟨-, -, args⟩ := analysed_at ctx at_ fun _ => true
  rw [getElem?_append_left (List.getElem?_eq_some_iff.mp args).1, args] at stored
  obtain ⟨kept, stored⟩ := deadArgs_spec (Option.some.inj stored)
  rw [kept] at distinct ⊢
  have after : ∀ t, deadBefore ctx (is.drop (n + 1)) (fun _ => true) t = true →
      readAgain ctx (((analysed ctx is fun _ => true).map Instr.toOp).drop (n + 1)) t = false := by
    intro t isDead
    rw [← map_drop, analysed_drop]
    exact readAgain_of_dead isDead
  obtain ⟨t, at_, isDead⟩ | ⟨k, t, pos, at_, isDead⟩ := keptRound_bit distinct stored set
  · exact .inl ⟨t, at_, after t isDead⟩
  · exact .inr ⟨k, t, pos, at_, lastRead_of_between (after t) isDead⟩

end

/-- The analysis returns. Every run of the original stream is followed by a run of the
stream it leaves: the same side effects, and the same values in the globals and local
temporaries at every end of a block. What it marks dead is not read any more. -/
theorem tcgLivenessAnalysis_preserves {World : Type} (host : Host World) (ctx : TCGContext)
    (doc : host.Documented ctx) (is : List Instr) (emitted : Emitted ctx is) :
    ∃ r, tcgLivenessAnalysis ctx (genOpcBuf is) (genOpparamBuf is) = .ok r ∧
      (∀ (s t : Machine ctx World) (links : List Bool),
        run (step host (readStream (genOpcBuf is) (genOpparamBuf is))) s links = .ok t →
          ∃ t', run (step host (readStream r.opcs r.params)) s links = .ok t' ∧
            Follows (readStream (genOpcBuf is) (genOpparamBuf is)) t t') ∧
      DeadArgsSound ctx (readStream r.opcs r.params) r.deadArgs := by
  refine ⟨_, tcgLivenessAnalysis_instrs is, ?_, ?_⟩
  · intro s t links ran
    rw [readStream_instrs] at ran ⊢
    rw [readStream_instrs]
    exact analysed_follows doc emitted ran
  · rw [readStream_instrs]
    exact deadArgs_sound is

/-! ## A temporary that is an output twice -/

/-- A global 0 and two temporaries. -/
def outputsCtx : TCGContext := ⟨1, 3, fun _ => ⟨.i64, false⟩⟩

/-- The remainder is not used. -/
def quotientOps : List Instr :=
  [⟨.op (.movi .i64), [2, 5], rfl⟩, ⟨.op (.div2 .i64), [1, 2, 0, 0, 0], rfl⟩,
    ⟨.op (.movi .i64), [2, 6], rfl⟩, ⟨.op (.mov .i64), [0, 1], rfl⟩, ⟨.op .exitTb, [0], rfl⟩]

/-- Quotient and remainder go to the same temporary, which is stored in the global. -/
def repeatedOps : List Instr :=
  [⟨.op (.div2 .i64), [1, 1, 0, 0, 0], rfl⟩, ⟨.op (.mov .i64), [0, 1], rfl⟩,
    ⟨.op .exitTb, [0], rfl⟩]

/-- A host on which every operation without side effects gives 7. -/
def sevenHost : Host Unit :=
  ⟨fun _ _ _ _ => some fun _ => 7, fun _ _ _ _ _ => none, fun _ _ _ => false⟩

theorem sevenHost_documented : sevenHost.Documented outputsCtx :=
  ⟨fun _ _ _ _ _ _ _ h => (nomatch h), fun _ _ _ _ _ _ _ _ h => (nomatch h)⟩

def quotientStart : Machine outputsCtx Unit where
  pc := 0
  regs := (⟨fun _ => none, nofun⟩ : Regs outputsCtx).write 0 21
  world := ()
  trace := []
  exit := none

/-- The assignments to 2 are removed, and the quotient still reaches the global. -/
theorem quotient_analysed : ∃ r t',
    tcgLivenessAnalysis outputsCtx (genOpcBuf quotientOps) (genOpparamBuf quotientOps) = .ok r ∧
      r.opcs = [.nopn, .op (.div2 .i64), .nopn, .op (.mov .i64), .op .exitTb, .end_] ∧
      run (step sevenHost (readStream r.opcs r.params)) quotientStart (List.replicate 5 false) =
        .ok t' ∧ t'.exit = some (.exitTb 0) ∧ t'.regs.value 0 = some 7 ∧
      DeadArgsSound outputsCtx (readStream r.opcs r.params) r.deadArgs := by
  obtain ⟨r, ok, follows, sound⟩ := tcgLivenessAnalysis_preserves sevenHost outputsCtx
    sevenHost_documented quotientOps ⟨by decide, by decide, by decide⟩
  obtain ⟨t', ran, followed⟩ := follows quotientStart _ (List.replicate 5 false) rfl
  have computed : (tcgLivenessAnalysis outputsCtx (genOpcBuf quotientOps)
      (genOpparamBuf quotientOps)).toOption.map (·.opcs) =
        some [.nopn, .op (.div2 .i64), .nopn, .op (.mov .i64), .op .exitTb, .end_] := by
    decide +kernel
  rw [ok] at computed
  exact ⟨r, t', ok, Option.some.inj computed, ran, followed.exit,
    followed.left _ rfl 0 (.inl (by decide)), sound⟩

/-- The bit of the second output is set, and the temporary is read by the next operation. -/
theorem repeated_output : ∃ r,
    tcgLivenessAnalysis outputsCtx (genOpcBuf repeatedOps) (genOpparamBuf repeatedOps) = .ok r ∧
      readStream r.opcs r.params = repeatedOps.map Instr.toOp ∧
      ∃ op bits, (repeatedOps.map Instr.toOp)[0]? = some op ∧ r.deadArgs[0]? = some (some bits) ∧
        bits.getLsbD 1 = true ∧ op.outs[1]? = some 1 ∧
        readAgain outputsCtx ((repeatedOps.map Instr.toOp).drop 1) 1 = true := by
  refine ⟨_, rfl, by decide +kernel, _, 6, rfl, by decide +kernel, by decide, by decide, by decide⟩

end QemuStm32.Tcg
