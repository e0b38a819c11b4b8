import QemuStm32.Tcg.DeadCode

/-!
# The analysed stream does what the original does

The two streams run in lock step and agree on what is not dead. A removed operation
writes dead temporaries only; an operation that stays reads live ones.

The analysis rests on what `tcg.h` and `tcg/README` say of helpers
(`Host.Documented`).
-/

namespace QemuStm32.Tcg

open List Runs

section
variable {World : Type} {host : Host World} {ctx : TCGContext} {op : Op} {dead : DeadTemps}
  {t : Nat}

/-! ## Live before an operation -/

theorem deadBefore_read (mem : t ∈ op.inputs) : op.deadBefore ctx dead t = false := by
  simp [Op.deadBefore, mem]

theorem deadBefore_global (reads : readsGlobals op.opc op.consts = true)
    (global : t < ctx.nbGlobals) : op.deadBefore ctx dead t = false := by
  unfold Op.deadBefore Op.between
  split
  · simp [tcgLaBbEnd, global]
  · simp [globalsLive, global]

theorem deadBefore_survives (ends : op.opc.endsBlock = true) (survives : Survives ctx t) :
    op.deadBefore ctx dead t = false := by
  unfold Op.deadBefore Op.between
  rw [if_pos ends]
  obtain global | ⟨bound, kept⟩ := survives
  · simp [tcgLaBbEnd, global]
  · simp [tcgLaBbEnd, bound, kept]

theorem deadBefore_kept (inside : op.opc.endsBlock = false) (notOut : t ∉ op.outs)
    (live : dead t = false) : op.deadBefore ctx dead t = false := by
  unfold Op.deadBefore Op.between
  rw [inside]
  split
  · contradiction
  · split
    · simp [globalsLive, notOut, live]
    · simp [notOut, live]

/-! ## Values -/

variable {regs regs' : Regs ctx}

def Agree (dead : DeadTemps) (regs regs' : Regs ctx) : Prop :=
  ∀ t, dead t = false → regs'.value t = regs.value t

variable {ts consts : List Nat} {opc : Opcode} {reply : Reply World}

theorem readAll_congr (same : ∀ t ∈ ts, regs'.value t = regs.value t) (type : TCGType) :
    readAll regs' type ts = readAll regs type ts := by
  unfold readAll
  induction ts with
  | nil => rfl
  | cons t ts ih =>
    rw [mapM_cons, mapM_cons, read_congr (same t mem_cons_self),
      ih fun u mem => same u (.tail _ mem)]

theorem writeOuts_congr {outs : Nat → BitVec 64} {i : Nat}
    (same : t ∈ ts ∨ regs'.value t = regs.value t) :
    (regs'.writeOuts outs i ts).value t = (regs.writeOuts outs i ts).value t := by
  induction ts generalizing i regs regs' with
  | nil => exact same.resolve_left not_mem_nil
  | cons u ts ih =>
    apply ih
    by_cases head : t = u
    · subst head
      exact .inr ((write_value regs' t _).trans (write_value regs t _).symm)
    · rw [write_of_ne _ _ head, write_of_ne _ _ head]
      exact same.imp_left fun mem => (mem_cons.mp mem).resolve_left head

/-- The inputs of an operation without dummies. -/
theorem Agree.ins (agree : Agree (op.deadBefore ctx dead) regs regs')
    (dummies : callDummyArg ∈ op.ins → op.opc = .call) (notCall : op.opc ≠ .call) :
    ∀ t ∈ op.ins, regs'.value t = regs.value t := by
  intro t mem
  refine agree t (deadBefore_read (mem_filter.mpr ⟨mem, ?_⟩))
  rw [decide_eq_true_eq]
  rintro rfl
  exact notCall (dummies mem)

theorem plainOp_congr {world : World} {r : Regs ctx} (run : plainOp host regs world op = some r)
    (same : ∀ t ∈ op.ins, regs'.value t = regs.value t) :
    ∃ r', plainOp host regs' world op = some r' ∧
      ∀ t, t ∈ op.outs ∨ regs'.value t = regs.value t → r'.value t = r.value t := by
  have computed (run : ((readAll regs op.opc.readType op.ins).bind fun ins =>
      (computeOp host op.opc ins op.consts world).map fun outs =>
        regs.writeOuts outs 0 op.outs) = some r) :
      ∃ r', ((readAll regs' op.opc.readType op.ins).bind fun ins =>
        (computeOp host op.opc ins op.consts world).map fun outs =>
          regs'.writeOuts outs 0 op.outs) = some r' ∧
        ∀ t, t ∈ op.outs ∨ regs'.value t = regs.value t → r'.value t = r.value t := by
    obtain ⟨ins, reads, run⟩ := Option.bind_eq_some_iff.mp run
    obtain ⟨outs, computes, rfl⟩ := Option.map_eq_some_iff.mp run
    rw [readAll_congr same, reads, Option.bind_some, computes]
    exact ⟨_, rfl, fun t agreed => writeOuts_congr agreed⟩
  obtain ⟨opc, args⟩ := op
  cases opc with
  | nop | debugInsnStart pc =>
    cases run
    exact ⟨regs', rfl, fun t agreed => agreed.resolve_left (by simp [Op.outs, Op.nbOuts, tcgOpDefs,
      TCGOpDef.plain])⟩
  | discard =>
    cases run
    refine ⟨_, rfl, fun t agreed => ?_⟩
    dsimp only [Regs.forget]
    split
    · rfl
    · rename_i kept
      exact agreed.resolve_left (by simpa using kept)
  | _ => exact computed run

theorem endBlock_congr (same : ∀ u, Survives ctx u → regs'.value u = regs.value u)
    (bound : t < ctx.nbTemps) : regs'.endBlock.value t = regs.endBlock.value t := by
  by_cases global : t < ctx.nbGlobals
  · simp [Regs.endBlock, Regs.forget, Nat.not_le.mpr global, same t (.inl global)]
  · cases kept : ctx.isLocal t with
    | true => rw [endBlock_kept kept, endBlock_kept kept, same t (.inr ⟨bound, kept⟩)]
    | false =>
      rw [endBlock_lost (Nat.not_lt.mp global) kept, endBlock_lost (Nat.not_lt.mp global) kept]

/-! ## One operation -/

/-- What the documentation says of helpers and stores. -/
structure Host.Documented (host : Host World) (ctx : TCGContext) : Prop where
  /-- "A pure function only reads its arguments and TCG global variables and cannot
  raise exceptions." -/
  pure : ∀ opc ins consts globals world reply, pureCall opc consts = true →
    host.perform opc ins consts globals world = some reply →
      reply.world = world ∧ reply.raised = false ∧
        ∀ t < ctx.nbGlobals, reply.globals t = globals t
  /-- "A const function only reads its arguments and does not use TCG global variables."
  A store does not use them either. Without them there is no exception to raise. -/
  const : ∀ opc ins consts globals globals' world reply, readsGlobals opc consts = false →
    host.perform opc ins consts globals world = some reply →
      reply.raised = false ∧ (∀ t < ctx.nbGlobals, reply.globals t = globals t) ∧
      ∃ reply', host.perform opc ins consts globals' world = some reply' ∧
        reply'.outs = reply.outs ∧ reply'.world = reply.world ∧ reply'.raised = false

/-- The side effects, without the calls that may be removed. -/
def visible (trace : List Effect) : List Effect :=
  trace.filter fun e => !pureCall e.opc e.consts

/-- What is left when the block is left: an exception leaves the globals. -/
def Exit.Keeps (ctx : TCGContext) (t : Nat) : Exit → Prop
  | .raised => t < ctx.nbGlobals
  | _ => Survives ctx t

/-- Two machines at the same place that had the same side effects. -/
structure Alike (s s' : Machine ctx World) : Prop where
  pc : s'.pc = s.pc
  world : s'.world = s.world
  effects : visible s'.trace = visible s.trace
  exit : s'.exit = s.exit

/-- Where an operation leads: out of the block, to the next operation, or to the start
of a block. -/
def Carried (dead : DeadTemps) (s t t' : Machine ctx World) : Prop :=
  (∃ e, t.exit = some e ∧ ∀ u, e.Keeps ctx u → t'.regs.value u = t.regs.value u) ∨
    (t.exit = s.exit ∧ t.pc = s.pc + 1 ∧ Agree dead t.regs t'.regs) ∨
    (t.exit = s.exit ∧ ∀ u < ctx.nbTemps, t'.regs.value u = t.regs.value u)

variable {labels : Nat → Option Nat} {linked : Bool} {s s' m : Machine ctx World}

theorem visible_record {ins : List (BitVec 64)} (alike : Alike s s') :
    visible (s'.record op ins).trace = visible (s.record op ins).trace := by
  simp only [Machine.record, visible, filter_append]
  exact congrArg (· ++ _) alike.effects

theorem Alike.record (alike : Alike s s') (op : Op) (ins : List (BitVec 64)) :
    Alike (s.record op ins) (s'.record op ins) :=
  ⟨alike.pc, alike.world, visible_record alike, alike.exit⟩

theorem Alike.next (alike : Alike s s') (regs regs' : Regs ctx) :
    Alike (s.next regs) (s'.next regs') :=
  ⟨congrArg (· + 1) alike.pc, alike.world, alike.effects, alike.exit⟩

theorem Alike.leave (alike : Alike s s') (exit : Exit) : Alike (s.leave exit) (s'.leave exit) :=
  ⟨alike.pc, alike.world, alike.effects, rfl⟩

theorem globals_congr (same : ∀ u < ctx.nbGlobals, regs'.value u = regs.value u) :
    regs'.globals = regs.globals := by
  funext u
  unfold Regs.globals
  split
  · rename_i global
    exact same u global
  · rfl

theorem resume_next (quiet : reply.raised = false) :
    s.resume op reply = { s with
      pc := s.pc + 1
      world := reply.world
      regs := (s.regs.setGlobals reply.globals).writeOuts reply.outs 0 op.outs } := by
  simp [Machine.resume, quiet]

theorem resume_raised (raised : reply.raised = true) :
    s.resume op reply = { s with
      regs := s.regs.setGlobals reply.globals
      world := reply.world
      exit := some .raised } := by
  simp [Machine.resume, raised]

/-- Two replies that differ in dead globals at most. -/
theorem resume_carried {reply reply' : Reply World} (alike : Alike s s')
    (outs : reply'.outs = reply.outs) (world : reply'.world = reply.world)
    (raised : reply'.raised = reply.raised)
    (same : ∀ u, reply.raised = true ∧ u < ctx.nbGlobals ∨ dead u = false ∧ u ∉ op.outs →
      (s'.regs.setGlobals reply'.globals).value u = (s.regs.setGlobals reply.globals).value u) :
    Alike (s.resume op reply) (s'.resume op reply') ∧
      Carried dead s (s.resume op reply) (s'.resume op reply') := by
  cases leaves : reply.raised with
  | true =>
    rw [resume_raised leaves, resume_raised (raised.trans leaves)]
    exact ⟨⟨alike.pc, world, alike.effects, rfl⟩,
      .inl ⟨.raised, rfl, fun u global => same u (.inl ⟨leaves, global⟩)⟩⟩
  | false =>
    rw [resume_next leaves, resume_next (raised.trans leaves), outs]
    refine ⟨⟨congrArg (· + 1) alike.pc, world, alike.effects, alike.exit⟩,
      .inr (.inl ⟨rfl, rfl, fun u live => ?_⟩)⟩
    apply writeOuts_congr
    by_cases out : u ∈ op.outs
    · exact .inl out
    · exact .inr (same u (.inr ⟨live, out⟩))

theorem goto_carried {label : Nat} (alike : Alike s s')
    (same : ∀ u, Survives ctx u → s'.regs.value u = s.regs.value u)
    (run : s.goto labels label = .ok m) :
    ∃ m', s'.goto labels label = .ok m' ∧ Alike m m' ∧ Carried dead s m m' := by
  unfold Machine.goto at run ⊢
  split at run
  · cases run
    exact ⟨_, rfl, ⟨rfl, alike.world, alike.effects, alike.exit⟩,
      .inr (.inr ⟨rfl, fun u bound => endBlock_congr same bound⟩)⟩
  · cases run

theorem endBlock_carried (same : ∀ u, Survives ctx u → s'.regs.value u = s.regs.value u) :
    Carried dead s (s.next s.regs.endBlock) (s'.next s'.regs.endBlock) :=
  .inr (.inr ⟨rfl, fun _ bound => endBlock_congr same bound⟩)

theorem branchOp_carried {label : Nat} (alike : Alike s s')
    (same : ∀ u, Survives ctx u → s'.regs.value u = s.regs.value u)
    (reads' : readAll s'.regs .i64 op.ins = readAll s.regs .i64 op.ins)
    (run : branchOp host s labels op label = .ok m) :
    ∃ m', branchOp host s' labels op label = .ok m' ∧ Alike m m' ∧ Carried dead s m m' := by
  obtain ⟨ins, reads, run⟩ := bind_ok_iff.mp run
  unfold branchOp
  rw [reads', reads]
  dsimp only [Bind.bind, Except.bind]
  split at run
  · rename_i taken
    rw [if_pos taken]
    exact goto_carried (s := s.record _ _) (alike.record _ _) same run
  · rename_i falls
    rw [if_neg falls]
    cases run
    exact ⟨_, rfl, (alike.record _ _).next _ _, endBlock_carried (s := s.record _ _) same⟩

section
variable (alike : Alike s s') (agree : Agree (op.deadBefore ctx dead) s.regs s'.regs)
  (run : execute host labels s linked op = .ok m) (dummies : callDummyArg ∈ op.ins → op.opc = .call)
include alike agree run

include dummies in
/-- An operation without side effects that stays. -/
theorem plain_carried (plain : op.opc.isPlain = true) :
    ∃ m', execute host labels s' linked op = .ok m' ∧ Alike m m' ∧ Carried dead s m m' := by
  have inside : op.opc.endsBlock = false := by
    generalize op.opc = opc at plain
    cases opc <;> first | rfl | cases plain
  have notCall : op.opc ≠ .call := by
    intro call
    rw [call] at plain
    cases plain
  rw [execute_plain plain] at run ⊢
  obtain ⟨regs, computed, run⟩ := bind_ok_iff.mp run
  cases run
  obtain ⟨regs', computed', same⟩ :=
    plainOp_congr (defined_ok.mp computed) (agree.ins dummies notCall)
  rw [alike.world]
  refine ⟨_, bind_ok_iff.mpr ⟨regs', defined_ok.mpr computed', rfl⟩, alike.next regs regs',
    .inr (.inl ⟨rfl, rfl, fun t live => same t ?_⟩)⟩
  by_cases out : t ∈ op.outs
  · exact .inl out
  · exact .inr (agree t (deadBefore_kept inside out live))

/-- A store, a guest memory access or a call that stays. -/
theorem effect_carried (doc : host.Documented ctx) (effect : op.opc.isEffect = true) :
    ∃ m', execute host labels s' linked op = .ok m' ∧ Alike m m' ∧ Carried dead s m m' := by
  have inside : op.opc.endsBlock = false := by
    generalize op.opc = opc at effect
    cases opc <;> first | rfl | cases effect
  have kept : ∀ u, dead u = false → u ∉ op.outs → s'.regs.value u = s.regs.value u :=
    fun u live out => agree u (deadBefore_kept inside out live)
  rw [execute_effect effect] at run ⊢
  obtain ⟨ins, reads, run⟩ := bind_ok_iff.mp run
  obtain ⟨reply, replied, run⟩ := bind_ok_iff.mp run
  cases run
  have reads' : defined (readAll s'.regs .i64 op.inputs) = .ok ins := by
    rw [readAll_congr fun t mem => agree t (deadBefore_read mem)]
    exact reads
  rw [defined_ok] at replied
  cases uses : readsGlobals op.opc op.consts with
  | true =>
    have globals : s'.regs.globals = s.regs.globals :=
      globals_congr fun u global => agree u (deadBefore_global uses global)
    refine ⟨_, bind_ok_iff.mpr ⟨ins, reads', bind_ok_iff.mpr ⟨reply, ?_, rfl⟩⟩,
      resume_carried (alike.record op ins) rfl rfl rfl fun u observed => ?_⟩
    · rw [globals, alike.world, defined_ok]
      exact replied
    · by_cases global : u < ctx.nbGlobals
      · simp only [Regs.setGlobals, if_pos global]
      · simp only [Regs.setGlobals, if_neg global]
        obtain ⟨-, isGlobal⟩ | ⟨live, out⟩ := observed
        · exact absurd isGlobal global
        · exact kept u live out
  | false =>
    obtain ⟨quiet, keeps, reply', replied', outs, world, quiet'⟩ :=
      doc.const _ _ _ _ s'.regs.globals _ _ uses replied
    obtain ⟨-, keeps', -⟩ := doc.const _ _ _ _ s'.regs.globals _ _ uses replied'
    refine ⟨_, bind_ok_iff.mpr ⟨ins, reads', bind_ok_iff.mpr ⟨reply', ?_, rfl⟩⟩,
      resume_carried (alike.record op ins) outs world (quiet'.trans quiet.symm)
        fun u observed => ?_⟩
    · rw [alike.world, defined_ok]
      exact replied'
    · obtain ⟨raises, -⟩ | ⟨live, out⟩ := observed
      · cases quiet.symm.trans raises
      · have own : (s.regs.setGlobals reply.globals).value u = s.regs.value u :=
          setGlobals_kept (keeps u)
        have own' : (s'.regs.setGlobals reply'.globals).value u = s'.regs.value u :=
          setGlobals_kept (keeps' u)
        exact own'.trans ((kept u live out).trans own.symm)

include dummies in
/-- Jumps and labels. -/
theorem control_carried (notPlain : op.opc.isPlain = false) (notEffect : op.opc.isEffect = false) :
    ∃ m', execute host labels s' linked op = .ok m' ∧ Alike m m' ∧ Carried dead s m m' := by
  have ends : op.opc.endsBlock = true := by
    generalize op.opc = opc at notPlain notEffect
    cases opc <;> first | rfl | (cases notPlain; done) | cases notEffect
  have same : ∀ u, Survives ctx u → s'.regs.value u = s.regs.value u :=
    fun u survives => agree u (deadBefore_survives ends survives)
  have notCall : op.opc ≠ .call := by
    intro call
    rw [call] at ends
    cases ends
  have reads' : readAll s'.regs .i64 op.ins = readAll s.regs .i64 op.ins :=
    readAll_congr (agree.ins dummies notCall) _
  unfold execute at run ⊢
  obtain ⟨opc, args⟩ := op
  cases opc with
  | setLabel =>
    cases run
    exact ⟨_, rfl, alike.next _ _, endBlock_carried same⟩
  | br => exact goto_carried (s := s.record _ _) (alike.record _ _) same run
  | brcond type => exact branchOp_carried alike same reads' run
  | brcond2 => exact branchOp_carried alike same reads' run
  | jmp =>
    obtain ⟨ins, reads, run⟩ := bind_ok_iff.mp run
    cases run
    rw [reads', reads]
    exact ⟨_, rfl, (alike.record _ _).leave _, .inl ⟨.jmp, rfl, same⟩⟩
  | exitTb =>
    cases run
    exact ⟨_, rfl, (alike.record _ _).leave _, .inl ⟨_, rfl, same⟩⟩
  | gotoTb =>
    cases linked with
    | true =>
      cases run
      exact ⟨_, rfl, (alike.record _ _).leave _, .inl ⟨_, rfl, same⟩⟩
    | false =>
      cases run
      exact ⟨_, rfl, (alike.record _ _).next _ _, endBlock_carried (s := s.record _ _) same⟩
  | _ => first | (cases notPlain; done) | cases notEffect

include dummies in
theorem execute_carried (doc : host.Documented ctx) :
    ∃ m', execute host labels s' linked op = .ok m' ∧ Alike m m' ∧ Carried dead s m m' := by
  cases plain : op.opc.isPlain with
  | true => exact plain_carried alike agree run dummies plain
  | false =>
    cases effect : op.opc.isEffect with
    | true => exact effect_carried alike agree run doc effect
    | false => exact control_carried alike agree run dummies plain effect

end

theorem execute_nop (nop : op.opc = .nop) :
    execute host labels s linked op = .ok (s.next s.regs) := by
  rw [execute_plain (by rw [nop]; rfl)]
  unfold plainOp
  rw [nop]
  rfl

/-- An operation that was removed: in its place nothing happens. -/
theorem removed_carried (doc : host.Documented ctx) (alike : Alike s s')
    (removable : op.Removable) (outs : ∀ t ∈ op.outs, dead t = true)
    (agree : Agree dead s.regs s'.regs) (run : execute host labels s linked op = .ok m) :
    Alike m (s'.next s'.regs) ∧ Carried dead s m (s'.next s'.regs) := by
  have notOut : ∀ u, dead u = false → u ∉ op.outs := by
    intro u live mem
    rw [outs u mem] at live
    cases live
  obtain plain | pure := removable
  · rw [execute_plain plain] at run
    obtain ⟨regs, computed, run⟩ := bind_ok_iff.mp run
    cases run
    refine ⟨alike.next _ _, .inr (.inl ⟨rfl, rfl, fun u live => ?_⟩)⟩
    exact (agree u live).trans (plainOp_frame (defined_ok.mp computed) (notOut u live)).symm
  have call : op.opc = .call := of_decide_eq_true (Bool.and_eq_true_iff.mp pure).1
  rw [execute_effect (by rw [call]; rfl)] at run
  obtain ⟨ins, -, run⟩ := bind_ok_iff.mp run
  obtain ⟨reply, replied, run⟩ := bind_ok_iff.mp run
  cases run
  rw [defined_ok] at replied
  obtain ⟨world, quiet, keeps⟩ := doc.pure _ _ _ _ _ _ pure replied
  have hidden : visible (s.record op ins).trace = visible s.trace := by
    simp [visible, Machine.record, pure]
  rw [resume_next quiet]
  refine ⟨⟨congrArg (· + 1) alike.pc, alike.world.trans world.symm,
    alike.effects.trans hidden.symm, alike.exit⟩, .inr (.inl ⟨rfl, rfl, fun u live => ?_⟩)⟩
  rw [writeOuts_of_notMem (notOut u live)]
  exact (agree u live).trans (setGlobals_kept (keeps u)).symm

/-! ## The stream -/

/-- A stream of the `tcg_gen_*` functions: the globals are the first temporaries, the
arguments are temporaries, and only a call has dummies between them. -/
structure Emitted (ctx : TCGContext) (is : List Instr) : Prop where
  globals : ctx.nbGlobals ≤ ctx.nbTemps
  temps : ∀ i ∈ is, ∀ t ∈ i.toOp.outs ++ i.toOp.inputs, t < ctx.nbTemps
  dummies : ∀ i ∈ is, callDummyArg ∈ i.toOp.ins → i.toOp.opc = .call

variable {is : List Instr} {i : Instr} {n : Nat}

theorem Emitted.tail (emitted : Emitted ctx (i :: is)) : Emitted ctx is :=
  ⟨emitted.globals, fun j mem => emitted.temps j (.tail _ mem),
    fun j mem => emitted.dummies j (.tail _ mem)⟩

theorem live_bound (emitted : Emitted ctx is) (live : deadBefore ctx is (fun _ => true) t = false) :
    t < ctx.nbTemps := by
  induction is with
  | nil => cases live
  | cons i is ih =>
    have spec := after_spec ctx i (deadBefore ctx is fun _ => true)
    rw [deadBefore] at live
    obtain ⟨-, same, -⟩ | ⟨-, same⟩ := spec
    · rw [same] at live
      exact ih emitted.tail live
    rw [same] at live
    have globals := emitted.globals
    have after : (decide (t ∈ i.toOp.outs) || deadBefore ctx is (fun _ => true) t) = false →
        t < ctx.nbTemps := fun live => ih emitted.tail (Bool.or_eq_false_iff.mp live).2
    simp only [Op.deadBefore, Op.between, Bool.and_eq_false_iff, Bool.not_eq_false',
      decide_eq_true_eq] at live
    obtain mem | live := live
    · exact emitted.temps i mem_cons_self t (mem_append_right _ mem)
    split at live
    · simp only [tcgLaBbEnd] at live
      split at live
      · omega
      · split at live
        · assumption
        · exact after live
    · split at live
      · simp only [globalsLive] at live
        split at live
        · omega
        · exact after live
      · exact after live

variable (ctx) in
/-- One place of the stream. -/
theorem analysed_at (at_ : is[n]? = some i) (dead : DeadTemps) :
    deadBefore ctx (is.drop n) dead =
        (livenessRound ctx i.opc i.args (deadBefore ctx (is.drop (n + 1)) dead)).dead ∧
      (analysed ctx is dead)[n]? = some (i.after ctx (deadBefore ctx (is.drop (n + 1)) dead)) ∧
      (deadArgsOf ctx is dead)[n]? = some
        (livenessRound ctx i.opc i.args (deadBefore ctx (is.drop (n + 1)) dead)).deadArgs := by
  induction is generalizing n with
  | nil => cases at_
  | cons j is ih =>
    cases n with
    | zero =>
      obtain rfl : j = i := by simpa using at_
      exact ⟨rfl, rfl, rfl⟩
    | succ n => exact ih (by simpa using at_)

theorem labelIndex_analysed (is : List Instr) :
    labelIndex ((analysed ctx is fun _ => true).map Instr.toOp) =
      labelIndex (is.map Instr.toOp) := by
  funext label
  induction is with
  | nil => rfl
  | cons i is ih =>
    have defines : (i.after ctx (deadBefore ctx is fun _ => true)).toOp.defines label =
        i.toOp.defines label := by
      obtain ⟨nop, -, -, removable⟩ | ⟨kept, -⟩ := after_spec ctx i
        (deadBefore ctx is fun _ => true)
      · have notLabel : i.toOp.opc ≠ .setLabel := by
          intro label
          have inside := removable.inside
          rw [label] at inside
          cases inside
        simp [Op.defines, nop, notLabel]
      · rw [kept]
    unfold labelIndex at ih ⊢
    rw [analysed, map_cons, map_cons, findIdx?_cons, findIdx?_cons, defines, ih]

/-- The second run is where the first is, had the same side effects, and holds the same
in the globals and local temporaries when the block is left or a basic block ends. -/
structure Follows (ops : List Op) (s s' : Machine ctx World) : Prop extends Alike s s' where
  left : ∀ e, s.exit = some e → ∀ u, e.Keeps ctx u → s'.regs.value u = s.regs.value u
  blockEnd : s.exit = none → ∀ op, ops[s.pc]? = some op → op.opc.endsBlock = true →
    ∀ u, Survives ctx u → s'.regs.value u = s.regs.value u

/-- The runs agree on what is not dead. -/
structure InStep (is : List Instr) (s s' : Machine ctx World) : Prop extends Alike s s' where
  left : ∀ e, s.exit = some e → ∀ u, e.Keeps ctx u → s'.regs.value u = s.regs.value u
  agree : s.exit = none →
    Agree (deadBefore ctx (is.drop s.pc) fun _ => true) s.regs s'.regs

theorem Emitted.drop (emitted : Emitted ctx is) (n : Nat) : Emitted ctx (is.drop n) :=
  ⟨emitted.globals, fun j mem => emitted.temps j (mem_of_mem_drop mem),
    fun j mem => emitted.dummies j (mem_of_mem_drop mem)⟩

theorem Carried.inStep {m' : Machine ctx World} (emitted : Emitted ctx is) (inside : s.exit = none)
    (alike : Alike m m')
    (carried : Carried (deadBefore ctx (is.drop (s.pc + 1)) fun _ => true) s m m') :
    InStep is m m' := by
  obtain ⟨e, exit, same⟩ | ⟨exit, pc, agree⟩ | ⟨exit, same⟩ := carried
  · refine ⟨alike, fun e' exit' => ?_, fun none => ?_⟩
    · obtain rfl : e = e' := Option.some.inj (exit.symm.trans exit')
      exact same
    · cases exit.symm.trans none
  · refine ⟨alike, fun e left => ?_, fun _ => ?_⟩
    · rw [exit, inside] at left
      cases left
    · rw [pc]
      exact agree
  · refine ⟨alike, fun e left => ?_, fun _ u live => same u ?_⟩
    · rw [exit, inside] at left
      cases left
    · exact live_bound (emitted.drop m.pc) live

theorem step_inStep (doc : host.Documented ctx) (emitted : Emitted ctx is)
    (inStep : InStep is s s') (stepped : step host (is.map Instr.toOp) s linked = .ok m) :
    ∃ m', step host ((analysed ctx is fun _ => true).map Instr.toOp) s' linked = .ok m' ∧
      InStep is m m' := by
  unfold step at stepped ⊢
  rw [inStep.exit, inStep.pc]
  by_cases exited : s.exit.isSome = true
  · rw [if_pos exited] at stepped ⊢
    cases stepped
    exact ⟨s', rfl, inStep⟩
  rw [if_neg exited] at stepped ⊢
  have inside : s.exit = none := by simpa using exited
  split at stepped
  · cases stepped
  next op fetch =>
  rw [getElem?_map] at fetch
  obtain ⟨i, at_, rfl⟩ := Option.map_eq_some_iff.mp fetch
  obtain ⟨before, after, -⟩ := analysed_at ctx at_ fun _ => true
  have agree := inStep.agree inside
  rw [before] at agree
  rw [getElem?_map, after, Option.map_some, labelIndex_analysed]
  obtain ⟨nop, same, outs, removable⟩ | ⟨kept, same⟩ := after_spec ctx i
    (deadBefore ctx (is.drop (s.pc + 1)) fun _ => true)
  · rw [same] at agree
    obtain ⟨alike, carried⟩ := removed_carried doc inStep.toAlike removable outs agree stepped
    exact ⟨_, execute_nop nop, carried.inStep emitted inside alike⟩
  · rw [same] at agree
    rw [kept]
    obtain ⟨m', run, alike, carried⟩ := execute_carried inStep.toAlike agree stepped
      (emitted.dummies i (mem_of_getElem? at_)) doc
    exact ⟨m', run, carried.inStep emitted inside alike⟩

theorem InStep.follows (inStep : InStep is s s') :
    Follows (is.map Instr.toOp) s s' := by
  refine ⟨inStep.toAlike, inStep.left, fun inside op fetch ends u survives => ?_⟩
  rw [getElem?_map] at fetch
  obtain ⟨i, at_, rfl⟩ := Option.map_eq_some_iff.mp fetch
  obtain ⟨before, -, -⟩ := analysed_at ctx at_ fun _ => true
  apply inStep.agree inside
  rw [before]
  obtain ⟨-, -, -, removable⟩ | ⟨-, same⟩ := after_spec ctx i
    (deadBefore ctx (is.drop (s.pc + 1)) fun _ => true)
  · cases removable.inside.symm.trans ends
  · rw [same]
    exact deadBefore_survives ends survives

/-- Every run of the original stream is followed by a run of the analysed one. -/
theorem analysed_follows (doc : host.Documented ctx) (emitted : Emitted ctx is) {links : List Bool}
    (ran : run (step host (is.map Instr.toOp)) s links = .ok m) :
    ∃ m', run (step host ((analysed ctx is fun _ => true).map Instr.toOp)) s links = .ok m' ∧
      Follows (is.map Instr.toOp) m m' := by
  have same : InStep is s s := ⟨⟨rfl, rfl, rfl, rfl⟩, fun _ _ _ _ => rfl, fun _ _ _ => rfl⟩
  have simulates : ∀ s s' linked m, InStep is s s' →
      step host (is.map Instr.toOp) s linked = .ok m →
        ∃ m', step host ((analysed ctx is fun _ => true).map Instr.toOp) s' linked = .ok m' ∧
          InStep is m m' :=
    fun s s' linked m inStep stepped => step_inStep doc emitted inStep stepped
  obtain ⟨m', ran', inStep⟩ := run_of_simulation simulates same ran
  exact ⟨m', ran', inStep.follows⟩

end

end QemuStm32.Tcg
