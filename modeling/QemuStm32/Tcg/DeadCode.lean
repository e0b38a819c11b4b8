import QemuStm32.Tcg.Effects
import QemuStm32.Tcg.Liveness

/-!
# What the analysis leaves

The analysis reads the buffers as `tcg_gen_code_common` does, and leaves every
operation in its place or makes it a no-op (`after_spec`).
-/

namespace QemuStm32.Tcg

open List Runs

section
variable {ctx : TCGContext}

/-! ## The buffers -/

variable {args ins : List Nat} {dead : DeadTemps}

theorem marked_head (pos : 0 < args.length) (n : Nat) :
    ((args.set 0 n).set (args.length - 1) n).headD 0 = n := by
  cases args with
  | nil => cases pos
  | cons a args =>
    cases args with
    | nil | cons b args => rfl

theorem marked_last (pos : 0 < args.length) (n : Nat) :
    ((args.set 0 n).set (args.length - 1) n).getLastD 0 = n := by
  have last : ((args.set 0 n).set (args.length - 1) n).getLast? = some n := by
    rw [getLast?_eq_getElem?, length_set, length_set, getElem?_set_self (by rw [length_set]; omega)]
  rw [getLastD_eq_getLast?, last]
  rfl

theorem tcgSetNop_fits (args : List Nat) (dead : DeadTemps) :
    (tcgSetNop args dead).opc.Fits (tcgSetNop args dead).args := by
  unfold tcgSetNop
  split
  · rename_i empty
    exact empty
  rename_i nonempty
  have pos : 0 < args.length := Nat.pos_of_ne_zero nonempty
  have length : ((args.set 0 args.length).set (args.length - 1) args.length).length =
      args.length := by
    rw [length_set, length_set]
  refine ⟨?_, ?_, ?_⟩
  · rw [length]
    exact pos
  · rw [length, marked_head pos]
  · rw [length, marked_last pos]

theorem livenessRound_fits (i : Instr) (dead : DeadTemps) :
    (livenessRound ctx i.opc i.args dead).opc.Fits (livenessRound ctx i.opc i.args dead).args := by
  have fits := i.fits
  unfold livenessRound callRound plainRound
  split
  · rename_i opc
    dsimp only
    split
    · exact tcgSetNop_fits _ _
    · rw [opc] at fits
      exact fits
  iterate 5
    · exact fits
  · dsimp only
    split
    · exact tcgSetNop_fits _ _
    · exact fits

/-- The operation that the analysis leaves in place of another. -/
def Instr.after (ctx : TCGContext) (i : Instr) (dead : DeadTemps) : Instr :=
  ⟨(livenessRound ctx i.opc i.args dead).opc, (livenessRound ctx i.opc i.args dead).args,
    livenessRound_fits i dead⟩

/-- What is dead before the operations, given what is dead after them. -/
def deadBefore (ctx : TCGContext) : List Instr → DeadTemps → DeadTemps
  | [], dead => dead
  | i :: is, dead => (livenessRound ctx i.opc i.args (deadBefore ctx is dead)).dead

def analysed (ctx : TCGContext) : List Instr → DeadTemps → List Instr
  | [], _ => []
  | i :: is, dead => i.after ctx (deadBefore ctx is dead) :: analysed ctx is dead

def deadArgsOf (ctx : TCGContext) : List Instr → DeadTemps → List (Option (BitVec 16))
  | [], _ => []
  | i :: is, dead =>
    (livenessRound ctx i.opc i.args (deadBefore ctx is dead)).deadArgs :: deadArgsOf ctx is dead

section
variable (is : List Instr)

variable (ctx) in
/-- The walk takes the last operation first. -/
theorem analysed_last (i : Instr) (dead : DeadTemps) : deadBefore ctx (is ++ [i]) dead =
        deadBefore ctx is (livenessRound ctx i.opc i.args dead).dead ∧
      analysed ctx (is ++ [i]) dead =
        analysed ctx is (livenessRound ctx i.opc i.args dead).dead ++ [i.after ctx dead] ∧
      deadArgsOf ctx (is ++ [i]) dead =
        deadArgsOf ctx is (livenessRound ctx i.opc i.args dead).dead ++
          [(livenessRound ctx i.opc i.args dead).deadArgs] := by
  induction is with
  | nil => exact ⟨rfl, rfl, rfl⟩
  | cons j is ih =>
    obtain ⟨before, instrs, bits⟩ := ih
    simp only [cons_append, deadBefore, analysed, deadArgsOf, before, instrs, bits, and_self]

theorem Instr.nbArgsBack (i : Instr) (params : List Nat) :
    i.opc.nbArgsBack (params ++ i.args) = i.args.length := by
  have last (nonempty : 0 < i.args.length) (mark : i.args.getLastD 0 = i.args.length) :
      (params ++ i.args).getLastD 0 = i.args.length := by
    rw [getLastD_eq_getLast?,
      getLast?_append_of_ne_nil _ (length_pos_iff.mp nonempty), ← getLastD_eq_getLast?, mark]
  obtain ⟨opc, args, fits⟩ := i
  cases opc with
  | op opc =>
    cases opc with
    | call => exact last (by rw [fits.1]; omega) fits.2
    | _ => exact fits.symm
  | nopn => exact last fits.1 fits.2.2
  | end_ => exact fits.elim
  | _ => exact fits.symm

theorem livenessLoop_instrs (dead : DeadTemps) :
    livenessLoop ctx (is.map (·.opc)).reverse (genOpparamBuf is) dead =
      .ok ⟨(analysed ctx is dead).map (·.opc), genOpparamBuf (analysed ctx is dead),
        deadArgsOf ctx is dead⟩ := by
  induction is using reverseRecOn generalizing dead with
  | nil => rfl
  | append_singleton is i ih =>
    obtain ⟨-, instrs, bits⟩ := analysed_last ctx is i dead
    have params : genOpparamBuf (is ++ [i]) = genOpparamBuf is ++ i.args := by
      simp [genOpparamBuf]
    rw [instrs, bits, params, map_append, reverse_append]
    simp only [map_cons, map_nil, reverse_cons, reverse_nil, nil_append,
      cons_append, livenessLoop, i.nbArgsBack]
    have rest : (genOpparamBuf is ++ i.args).length - i.args.length =
        (genOpparamBuf is).length := by
      rw [length_append]
      omega
    rw [rest, take_left, ih, ok_bind]
    simp [Instr.after, genOpparamBuf]

theorem tcgLivenessAnalysis_instrs : tcgLivenessAnalysis ctx (genOpcBuf is) (genOpparamBuf is) =
      .ok ⟨genOpcBuf (analysed ctx is fun _ => true), genOpparamBuf (analysed ctx is fun _ => true),
        deadArgsOf ctx is (fun _ => true) ++ [none]⟩ := by
  unfold tcgLivenessAnalysis genOpcBuf
  rw [reverse_append, reverse_singleton, singleton_append, livenessLoop]
  simp only [GenOpcode.nbArgsBack, Nat.not_lt_zero, if_false, Nat.sub_zero, take_length,
    drop_length, livenessRound]
  rw [livenessLoop_instrs, ok_bind]
  simp

/-- The walk forwards finds as many arguments as there are. -/
theorem Instr.nbArgs (i : Instr) (params : List Nat) :
    i.opc.nbArgs (i.args ++ params) = i.args.length := by
  have head (nonempty : 0 < i.args.length) : (i.args ++ params).headD 0 = i.args.headD 0 := by
    cases args : i.args with
    | nil =>
      rw [args] at nonempty
      cases nonempty
    | cons a args => rfl
  obtain ⟨opc, args, fits⟩ := i
  cases opc with
  | op opc =>
    cases opc with
    | call =>
      have same := head (by rw [fits.1]; omega)
      have length := fits.1
      simp only [GenOpcode.nbArgs, Op.nbIns, Op.nbOuts, if_true] at same length ⊢
      omega
    | _ => exact fits.symm
  | nopn => exact (head fits.1).trans fits.2.1
  | end_ => exact fits.elim
  | _ => exact fits.symm

theorem readStream_instrs : readStream (genOpcBuf is) (genOpparamBuf is) = is.map Instr.toOp := by
  induction is with
  | nil => rfl
  | cons i is ih =>
    have params : genOpparamBuf (i :: is) = i.args ++ genOpparamBuf is := by
      simp [genOpparamBuf]
    have opcs : genOpcBuf (i :: is) = i.opc :: genOpcBuf is := rfl
    have notEnd : i.opc ≠ .end_ := by
      intro isEnd
      have fits := i.fits
      rw [isEnd] at fits
      exact fits
    rw [params, opcs, readStream, i.nbArgs, take_left, drop_left, ih]
    · rfl
    · exact notEnd

end

/-! ## What is dead -/

theorem deadOuts_dead (i : Nat) (outs : List Nat) (bits : BitVec 32) (dead : DeadTemps) (t : Nat) :
    (deadOuts i outs bits dead).2 t = (decide (t ∈ outs) || dead t) := by
  induction outs generalizing i bits dead with
  | nil => simp [deadOuts]
  | cons u outs ih =>
    rw [deadOuts, ih]
    by_cases h : t = u
    · subst h
      simp
    · simp [h]

theorem liveIns_dead (i : Nat) (ins : List Nat) (bits : BitVec 32) (dead : DeadTemps) (t : Nat) :
    (liveIns i ins bits dead).2 t =
      (!decide (t ∈ ins.filter (· ≠ callDummyArg)) && dead t) := by
  induction ins generalizing i bits dead with
  | nil => simp [liveIns]
  | cons u ins ih =>
    rw [liveIns]
    split
    · rename_i dummy
      rw [ih, filter_cons_of_neg (by simp [dummy])]
    rename_i temp
    rw [ih, filter_cons_of_pos (by simp [temp])]
    by_cases h : t = u
    · subst h
      simp
    · simp [h]

/-- The operation uses the globals: a call that is not `TCG_CALL_CONST`, or a guest
memory access, which may raise an exception. -/
def readsGlobals (opc : Opcode) (consts : List Nat) : Bool :=
  (tcgOpDefs opc).callClobber || (decide (opc = .call) && decide (consts.headD 0 &&& 0x20 = 0))

/-- The operation ends a basic block, or the next one starts after it. -/
def Opcode.endsBlock (opc : Opcode) : Bool := opc.bbEnd || decide (opc = .setLabel)

/-- The temporary keeps its value from block to block. -/
def Survives (ctx : TCGContext) (t : Nat) : Prop :=
  t < ctx.nbGlobals ∨ t < ctx.nbTemps ∧ ctx.isLocal t = true

/-- What happens between the outputs and the inputs of an operation. -/
def Op.between (ctx : TCGContext) (op : Op) : DeadTemps → DeadTemps :=
  if op.opc.endsBlock then tcgLaBbEnd ctx
  else if readsGlobals op.opc op.consts then globalsLive ctx
  else id

/-- What is dead before an operation that stays. -/
def Op.deadBefore (ctx : TCGContext) (op : Op) (dead : DeadTemps) : DeadTemps := fun t =>
  !decide (t ∈ op.inputs) && op.between ctx (fun t => decide (t ∈ op.outs) || dead t) t

/-- An operation without outputs and inputs. -/
theorem deadBefore_idle (op : Op) (outs : op.outs = []) (ins : op.ins = []) :
    op.deadBefore ctx dead = op.between ctx dead := by
  funext t
  simp [Op.deadBefore, Op.inputs, outs, ins]

/-- `TCG_CALL_PURE`. -/
def pureCall (opc : Opcode) (consts : List Nat) : Bool :=
  decide (opc = .call) && decide (consts.headD 0 &&& 0x10 ≠ 0)

/-- An operation that only computes its outputs. -/
def Op.Removable (op : Op) : Prop := op.opc.isPlain = true ∨ pureCall op.opc op.consts = true

theorem keptRound_dead (opc : GenOpcode) (args outs ins : List Nat)
    (between : DeadTemps → DeadTemps) (dead : DeadTemps) (t : Nat) :
    (keptRound opc args outs ins between dead).dead t =
      (!decide (t ∈ ins.filter (· ≠ callDummyArg)) &&
        between (fun t => decide (t ∈ outs) || dead t) t) := by
  have outputs : (deadOuts 0 outs 0 dead).2 = fun t => decide (t ∈ outs) || dead t :=
    funext (deadOuts_dead 0 outs 0 dead)
  change (liveIns outs.length ins _ (between (deadOuts 0 outs 0 dead).2)).2 t = _
  rw [liveIns_dead, outputs]

theorem tcgSetNop_spec (args : List Nat) (dead : DeadTemps) :
    (tcgSetNop args dead).opc.opcode = .nop ∧ (tcgSetNop args dead).dead = dead ∧
      (tcgSetNop args dead).deadArgs = none := by
  unfold tcgSetNop
  split <;> exact ⟨rfl, rfl, rfl⟩

/-- The operation goes, with outputs that are all dead, or it stays. -/
def RoundSpec (ctx : TCGContext) (opc : GenOpcode) (args : List Nat) (dead : DeadTemps)
    (r : Round) : Prop :=
  let op : Op := ⟨opc.opcode, args⟩
  (r.opc.opcode = .nop ∧ r.dead = dead ∧ r.deadArgs = none ∧ (∀ t ∈ op.outs, dead t = true) ∧
      op.Removable) ∨
    (r.opc = opc ∧ r.args = args ∧ r.dead = op.deadBefore ctx dead ∧
      (r.deadArgs = none ∨
        r.deadArgs = (keptRound opc args op.outs op.ins (op.between ctx) dead).deadArgs))

theorem keptRound_spec (opc : GenOpcode) (args : List Nat) (dead : DeadTemps) :
    RoundSpec ctx opc args dead (keptRound opc args (⟨opc.opcode, args⟩ : Op).outs
      (⟨opc.opcode, args⟩ : Op).ins ((⟨opc.opcode, args⟩ : Op).between ctx) dead) :=
  .inr ⟨rfl, rfl, funext fun t => keptRound_dead opc args _ _ _ dead t, .inr rfl⟩

theorem plainRound_spec (opc : GenOpcode) (args : List Nat) (dead : DeadTemps)
    (notCall : opc.opcode ≠ .call) (notLabel : opc.opcode ≠ .setLabel) :
    RoundSpec ctx opc args dead (plainRound ctx opc args dead) := by
  unfold plainRound
  dsimp only
  split
  · rename_i gone
    obtain ⟨nop, same, unset⟩ := tcgSetNop_spec args dead
    refine .inl ⟨nop, same, unset, by simpa using gone.2.2, .inl ?_⟩
    simp [Opcode.isPlain, gone.1, notLabel]
  · have between : (if opc.opcode.bbEnd then tcgLaBbEnd ctx
        else if (tcgOpDefs opc.opcode).callClobber then globalsLive ctx else id) =
        (⟨opc.opcode, args⟩ : Op).between ctx := by
      simp [Op.between, Opcode.endsBlock, readsGlobals, notCall, notLabel]
    rw [between]
    exact keptRound_spec opc args dead

theorem callRound_spec (args : List Nat) (dead : DeadTemps) :
    RoundSpec ctx (.op .call) args dead (callRound ctx args dead) := by
  unfold callRound
  dsimp only
  split
  · rename_i gone
    obtain ⟨nop, same, unset⟩ := tcgSetNop_spec args dead
    refine .inl ⟨nop, same, unset, all_eq_true.mp gone.2, .inr ?_⟩
    simpa [pureCall, GenOpcode.opcode] using gone.1
  · have between : (if (⟨.call, args⟩ : Op).consts.headD 0 &&& 0x20 = 0 then globalsLive ctx
        else id) = (⟨.call, args⟩ : Op).between ctx := by
      simp [Op.between, Opcode.endsBlock, Opcode.bbEnd, readsGlobals, tcgOpDefs, TCGOpDef.effect]
    rw [between]
    exact keptRound_spec (.op .call) args dead

theorem livenessRound_spec (i : Instr) (dead : DeadTemps) :
    RoundSpec ctx i.opc i.args dead (livenessRound ctx i.opc i.args dead) := by
  obtain ⟨opc, args, fits⟩ := i
  cases opc with
  | op opc =>
    cases opc with
    | call => exact callRound_spec args dead
    | setLabel =>
      exact .inr ⟨rfl, rfl, (deadBefore_idle ⟨.setLabel, args⟩ rfl rfl).symm, .inl rfl⟩
    | debugInsnStart pc =>
      exact .inr ⟨rfl, rfl, (deadBefore_idle ⟨.debugInsnStart pc, args⟩ rfl rfl).symm, .inl rfl⟩
    | discard =>
      obtain ⟨u, rfl⟩ : ∃ u, args = [u] := length_eq_one_iff.mp fits
      refine .inr ⟨rfl, rfl, funext fun t => ?_, .inl rfl⟩
      change Function.update dead u true t = (!decide (t ∈ []) && (decide (t ∈ [u]) || dead t))
      by_cases h : t = u
      · subst h
        simp
      · simp [h]
    | _ => exact plainRound_spec _ args dead nofun nofun
  | nopn => exact .inr ⟨rfl, rfl, (deadBefore_idle ⟨.nop, args⟩ rfl rfl).symm, .inl rfl⟩
  | end_ => exact fits.elim
  | _ => exact plainRound_spec _ args dead nofun nofun

variable (ctx) in
theorem after_spec (i : Instr) (dead : DeadTemps) :
    ((i.after ctx dead).toOp.opc = .nop ∧ (livenessRound ctx i.opc i.args dead).dead = dead ∧
        (∀ t ∈ i.toOp.outs, dead t = true) ∧ i.toOp.Removable) ∨
      ((i.after ctx dead).toOp = i.toOp ∧
        (livenessRound ctx i.opc i.args dead).dead = i.toOp.deadBefore ctx dead) := by
  obtain ⟨nop, same, -, removed⟩ | ⟨opc, args, before, -⟩ := livenessRound_spec i dead
  · exact .inl ⟨nop, same, removed⟩
  · exact .inr ⟨congrArg₂ Op.mk (congrArg GenOpcode.opcode opc) args, before⟩

/-- `op_dead_args` is stored for operations that stay. -/
theorem deadArgs_spec {i : Instr} {bits : BitVec 16}
    (stored : (livenessRound ctx i.opc i.args dead).deadArgs = some bits) :
    (i.after ctx dead).toOp = i.toOp ∧
      (keptRound i.opc i.args i.toOp.outs i.toOp.ins (i.toOp.between ctx) dead).deadArgs =
        some bits := by
  obtain ⟨-, -, unset, -⟩ | ⟨opc, args, -, unset | kept⟩ := livenessRound_spec i dead
  · cases unset.symm.trans stored
  · cases unset.symm.trans stored
  · exact ⟨congrArg₂ Op.mk (congrArg GenOpcode.opcode opc) args, kept.symm.trans stored⟩

theorem Op.Removable.inside {op : Op} (removable : op.Removable) : op.opc.endsBlock = false := by
  obtain plain | pure := removable
  · generalize op.opc = opc at plain
    cases opc <;> first | rfl | cases plain
  · rw [pureCall, Bool.and_eq_true, decide_eq_true_eq] at pure
    rw [pure.1]
    rfl

end

end QemuStm32.Tcg
