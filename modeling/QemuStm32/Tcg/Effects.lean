import QemuStm32.Tcg.Rewrite

/-!
# One round of the loop

Operations with side effects, labels and jumps are not rewritten. With the
rewritten ones (`foldOp_plain`) this gives the round for any operation
(`foldOp_round`).
-/

namespace QemuStm32.Tcg

open Runs

/-- An operation that the host performs: a store, a guest memory access or a call. -/
def Opcode.isEffect (opc : Opcode) : Bool :=
  (tcgOpDefs opc).sideEffects && match opc with
    | .jmp | .br | .brcond _ | .brcond2 | .exitTb | .gotoTb => false
    | _ => true

/-- What the optimizer resets at an operation: the globals, if it may change them, and
its outputs. -/
def Op.resets (ctx : TCGContext) (op : Op) : List Nat :=
  (if op.opc = .call ∧ keepsGlobals op.consts = false then List.range ctx.nbGlobals else []) ++
    op.outs

section
variable {World : Type} {host : Host World} {ctx : TCGContext} {temps : Temps} {h : HostShift}
  {op : Op} {labels : Nat → Option Nat} {s t : Machine ctx World} {linked : Bool}

theorem defined_ok {α : Type} {x : Option α} {a : α} : defined x = .ok a ↔ x = some a := by
  cases x with
  | none => exact ⟨nofun, nofun⟩
  | some b =>
    constructor
    · intro e; exact congrArg some (Except.ok.inj e)
    · intro e; exact congrArg Except.ok (Option.some.inj e)

theorem execute_plain (plain : op.opc.isPlain = true) :
    execute host labels s linked op =
      (defined (plainOp host s.regs s.world op) >>= fun regs => .ok (s.next regs)) := by
  unfold execute
  generalize hopc : op.opc = opc at plain
  cases opc <;> first | rfl | cases plain

theorem execute_effect (effect : op.opc.isEffect = true) :
    execute host labels s linked op = performOp host s op := by
  unfold execute
  generalize hopc : op.opc = opc at effect
  cases opc <;> first | rfl | cases effect

/-- Operations with side effects keep their arguments. -/
theorem propagateCopies_effect (effects : (tcgOpDefs op.opc).sideEffects = true) :
    propagateCopies temps op = op.args := by
  simp [propagateCopies, effects]

/-- An operation that the host performs stays; its outputs are reset, and the globals
if it may change them. -/
theorem foldOp_effect (effect : op.opc.isEffect = true) :
    foldOp h ctx temps op = keepOp ctx temps op (op.resets ctx) := by
  have effects : (tcgOpDefs op.opc).sideEffects = true := (Bool.and_eq_true_iff.mp effect).1
  have args : propagateCopies temps op = op.args := propagateCopies_effect effects
  unfold Op.resets
  by_cases call : op.opc = .call
  · unfold foldOp keepOp
    rw [call]
    dsimp only [foldCall, keepOp]
    cases keeps : keepsGlobals op.consts with
    | true => rfl
    | false => simp [List.foldlM_append]
  · have outs : op.args.take (tcgOpDefs op.opc).nbOargs = op.outs := by
      simp [Op.outs, Op.nbHead, Op.nbOuts, call]
    have default : foldOp h ctx temps op =
        keepOp ctx temps ⟨op.opc, op.args⟩ (op.args.take (tcgOpDefs op.opc).nbOargs) := by
      unfold foldOp
      rw [args]
      generalize op.opc = opc at effect call
      cases opc <;> first | rfl | exact absurd rfl call | cases effect
    rw [default, outs, if_neg fun e => call e.1]
    rfl

theorem setGlobals_kept {regs : Regs ctx} {globals : Nat → Option (BitVec 64)} {x : Nat}
    (same : x < ctx.nbGlobals → globals x = regs.globals x) :
    (regs.setGlobals globals).value x = regs.value x := by
  by_cases global : x < ctx.nbGlobals
  · have own := read_own regs x
    simp only [Regs.setGlobals, if_pos global, same global, Regs.globals]
    exact own
  · simp only [Regs.setGlobals, if_neg global]

/-- What is known after an operation that the host performs. -/
theorem performOp_known (op : Op) (tracked : Tracked ctx temps) (keeps : host.KeepsGlobals ctx) :
    ∃ temps', keepOp ctx temps op (op.resets ctx) = .ok (temps', op) ∧ Tracked ctx temps' ∧
      ∀ s t : Machine ctx World, Known ctx temps s.regs →
        Spares ctx s.regs (op.resets ctx) temps → performOp host s op = .ok t →
        t.exit.isSome = true ∨ t.pc = s.pc + 1 ∧ Known ctx temps' t.regs := by
  obtain ⟨temps', ok, tracked', unknown, known'⟩ := resets_spec tracked (op.resets ctx)
  refine ⟨temps', by rw [keepOp, ok]; rfl, tracked', fun s t known spared run => ?_⟩
  obtain ⟨ins, _, run⟩ := bind_ok_iff.mp run
  obtain ⟨reply, replied, run⟩ := bind_ok_iff.mp run
  cases run
  unfold Machine.resume
  split
  · exact .inl rfl
  refine .inr ⟨rfl, ?_⟩
  apply (known' s.regs known spared).change tracked'
  intro x hx
  have notReset : x ∉ op.resets ctx := fun mem => hx (unknown x (.inl mem))
  rw [Op.resets, List.mem_append, not_or] at notReset
  rw [writeOuts_of_notMem notReset.2]
  apply setGlobals_kept
  intro global
  apply keeps _ _ _ _ _ _ (defined_ok.mp replied) _ x global
  intro call
  by_contra changes
  apply notReset.1
  rw [if_pos ⟨call, by simpa using changes⟩]
  exact List.mem_range.mpr global

/-! ## Any operation -/

/-- Where an operation leads: out of the block, to the next operation, or after a label. -/
def Leads (labels : Nat → Option Nat) (temps : Temps) (s t : Machine ctx World) : Prop :=
  t.exit.isSome = true ∨ (t.pc = s.pc + 1 ∧ Known ctx temps t.regs) ∨
    ∃ label i, labels label = some i ∧ t.pc = i + 1

theorem goto_leads {label : Nat} (run : s.goto labels label = .ok t) (temps : Temps)
    (u : Machine ctx World) : Leads labels temps u t := by
  unfold Machine.goto at run
  split at run
  · next i found =>
    cases run
    exact .inr (.inr ⟨label, i, found, rfl⟩)
  · cases run

/-- Jumps and labels: they stay as they are. -/
theorem foldOp_control (tracked : Tracked ctx temps) (notPlain : op.opc.isPlain = false)
    (notEffect : op.opc.isEffect = false) (length : op.opc = .setLabel → op.args.length = 1) :
    ∃ temps', foldOp h ctx temps op = .ok (temps', op) ∧ Tracked ctx temps' ∧
      ∀ (labels : Nat → Option Nat) (s t : Machine ctx World) (linked : Bool),
        Known ctx temps s.regs → execute host labels s linked op = .ok t →
        Leads labels temps' s t := by
  obtain ⟨opc, args⟩ := op
  cases opc with
  | setLabel =>
    refine ⟨.cleared, rfl, cleared_tracked ctx, fun labels s t linked _ run => ?_⟩
    cases run
    exact .inr (.inl ⟨rfl, cleared_known _⟩)
  | jmp =>
    refine ⟨.cleared, rfl, cleared_tracked ctx, fun labels s t linked _ run => ?_⟩
    obtain ⟨ins, _, run⟩ := bind_ok_iff.mp run
    cases run
    exact .inl rfl
  | br =>
    refine ⟨.cleared, rfl, cleared_tracked ctx, fun labels s t linked _ run => ?_⟩
    exact goto_leads run _ s
  | brcond type =>
    refine ⟨.cleared, by cases type <;> rfl, cleared_tracked ctx, fun labels s t linked _ run => ?_⟩
    obtain ⟨ins, _, run⟩ := bind_ok_iff.mp run
    split at run
    · exact goto_leads run _ s
    · cases run
      exact .inr (.inl ⟨rfl, cleared_known _⟩)
  | brcond2 =>
    -- the `switch` does not know it: what is known stays
    refine ⟨temps, rfl, tracked, fun labels s t linked known run => ?_⟩
    obtain ⟨ins, _, run⟩ := bind_ok_iff.mp run
    split at run
    · exact goto_leads run _ s
    · cases run
      exact .inr (.inl ⟨rfl, known.endBlock tracked⟩)
  | exitTb =>
    refine ⟨temps, rfl, tracked, fun labels s t linked _ run => ?_⟩
    cases run
    exact .inl rfl
  | gotoTb =>
    refine ⟨temps, rfl, tracked, fun labels s t linked known run => ?_⟩
    unfold execute at run
    dsimp only at run
    split at run
    · cases run
      exact .inl rfl
    · cases run
      exact .inr (.inl ⟨rfl, known.endBlock tracked⟩)
  | _ => first | (cases notPlain; done) | cases notEffect

/-- One round of the loop: the operation that is emitted takes the same steps. -/
theorem foldOp_round (tracked : Tracked ctx temps) (keeps : host.KeepsGlobals ctx)
    (wf : op.WellFormed ctx) (rotates : h.Masks ∨ op.opc.isRotate = false) :
    ∃ temps' op', foldOp h ctx temps op = .ok (temps', op') ∧ Tracked ctx temps' ∧
      (∀ label, op'.defines label = op.defines label) ∧
      ∀ (labels : Nat → Option Nat) (s t : Machine ctx World) (linked : Bool),
        Known ctx temps s.regs → Spares ctx s.regs (op.resets ctx) temps →
        execute host labels s linked op = .ok t →
        execute host labels s linked op' = .ok t ∧ Leads labels temps' s t := by
  cases plain : op.opc.isPlain with
  | true =>
    have round : Simulates host ctx temps op (foldOp h ctx temps op) :=
      foldOp_plain tracked wf plain rotates
    obtain ⟨temps', op', ok, tracked', plain', simulated⟩ := round
    refine ⟨temps', op', ok, tracked', fun label => ?_,
      fun labels s t linked known spared run => ?_⟩
    · have noLabel : ∀ {opc : Opcode}, opc.isPlain = true → opc ≠ .setLabel := by
        rintro opc hopc rfl
        cases hopc
      simp [Op.defines, noLabel plain, noLabel plain']
    · rw [execute_plain plain] at run
      rw [execute_plain plain']
      obtain ⟨regs, hregs, run⟩ := bind_ok_iff.mp run
      cases run
      have outs : op.resets ctx = op.outs := by simp [Op.resets, (isPlain_spec plain).1]
      rw [outs] at spared
      obtain ⟨same, known'⟩ := simulated s.regs s.world regs known spared (defined_ok.mp hregs)
      exact ⟨bind_ok_iff.mpr ⟨regs, defined_ok.mpr same, rfl⟩, .inr (.inl ⟨rfl, known'⟩)⟩
  | false =>
    cases effect : op.opc.isEffect with
    | true =>
      obtain ⟨temps', ok, tracked', known'⟩ := performOp_known op tracked keeps
      refine ⟨temps', op, (foldOp_effect effect).trans ok, tracked', fun _ => rfl,
        fun labels s t linked known spared run => ⟨run, ?_⟩⟩
      rw [execute_effect effect] at run
      obtain exit | next := known' s t known spared run
      · exact .inl exit
      · exact .inr (.inl next)
    | false =>
      have length : op.opc = .setLabel → op.args.length = 1 := by
        intro label
        simp [wf.length, Op.nbHead, Op.nbOuts, Op.nbIns, label, tcgOpDefs, TCGOpDef.plain]
      obtain ⟨temps', ok, tracked', leads⟩ := foldOp_control tracked plain effect length
      exact ⟨temps', op, ok, tracked', fun _ => rfl,
        fun labels s t linked known _ run => ⟨run, leads labels s t linked known run⟩⟩

end

end QemuStm32.Tcg
