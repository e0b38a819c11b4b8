import QemuStm32.Fault
import QemuStm32.Lib.Runs
import QemuStm32.Tcg.Opcode

/-!
# Liveness analysis

`tcg_liveness_analysis` of `tcg/tcg.c`. It walks the stream from its end and knows
which temporaries are dead: what they hold is not read again. An operation with
outputs that are all dead becomes a no-op; for the others `op_dead_args` tells which
arguments are dead.

The stream is two buffers, opcodes and arguments. Backwards, the number of arguments
of a call and of a `nopn` is in the last of them.
-/

namespace QemuStm32.Tcg

/-- What stands in `gen_opc_buf`: the opcodes of `Opcode`, the other no-ops of
`tcg-opc.h`, and the end. -/
inductive GenOpcode
  | op (opc : Opcode)
  | nop1
  | nop2
  | nop3
  | nopn
  | end_
  deriving DecidableEq, Repr

/-- A no-op of any kind is `nop` with arguments. -/
def GenOpcode.opcode : GenOpcode → Opcode
  | .op opc => opc
  | _ => .nop

/-- `TCG_OPF_BB_END`. -/
def Opcode.bbEnd : Opcode → Bool
  | .jmp | .br | .brcond _ | .brcond2 | .exitTb | .gotoTb => true
  | _ => false

/-- `nb_args` of `TCGOpDef`. -/
def TCGOpDef.nbArgs (d : TCGOpDef) : Nat := d.nbOargs + d.nbIargs + d.nbCargs

/-- `dead_temps`. -/
abbrev DeadTemps := Nat → Bool

section
variable (ctx : TCGContext)

/-- `memset(dead_temps, 0, s->nb_globals)`. -/
def globalsLive (dead : DeadTemps) : DeadTemps := fun t =>
  if t < ctx.nbGlobals then false else dead t

/-- `tcg_la_bb_end`. -/
def tcgLaBbEnd (dead : DeadTemps) : DeadTemps := fun t =>
  if t < ctx.nbGlobals then false
  else if t < ctx.nbTemps then !ctx.isLocal t
  else dead t

/-- The loop over the outputs, from argument `i` on: they are dead before. -/
def deadOuts : (i : Nat) → List Nat → BitVec 32 → DeadTemps → BitVec 32 × DeadTemps
  | _, [], bits, dead => (bits, dead)
  | i, arg :: args, bits, dead =>
    deadOuts (i + 1) args (if dead arg then bits ||| 1#32 <<< i else bits)
      (Function.update dead arg true)

/-- The loop over the inputs: they are live before. Only a call has dummies. -/
def liveIns : (i : Nat) → List Nat → BitVec 32 → DeadTemps → BitVec 32 × DeadTemps
  | _, [], bits, dead => (bits, dead)
  | i, arg :: args, bits, dead =>
    if arg = callDummyArg then liveIns (i + 1) args bits dead
    else
      liveIns (i + 1) args (if dead arg then bits ||| 1#32 <<< i else bits)
        (Function.update dead arg false)

/-- One round of the loop: the operation after it with its arguments, what is stored in
`op_dead_args`, and what is dead before it. -/
structure Round where
  opc : GenOpcode
  args : List Nat
  deadArgs : Option (BitVec 16)
  dead : DeadTemps

/-- `tcg_set_nop`. -/
def tcgSetNop (args : List Nat) (dead : DeadTemps) : Round :=
  if args.length = 0 then ⟨.op .nop, args, none, dead⟩
  else ⟨.nopn, (args.set 0 args.length).set (args.length - 1) args.length, none, dead⟩

/-- An operation that stays. `between` is what happens between its outputs and its
inputs, at the end of a block or in a call. -/
def keptRound (opc : GenOpcode) (args outs ins : List Nat) (between : DeadTemps → DeadTemps)
    (dead : DeadTemps) : Round :=
  let (bits, dead) := deadOuts 0 outs 0 dead
  let (bits, dead) := liveIns outs.length ins bits (between dead)
  ⟨opc, args, some (bits.setWidth 16), dead⟩

/-- A call with `TCG_CALL_PURE` goes when its outputs are dead. -/
def callRound (args : List Nat) (dead : DeadTemps) : Round :=
  let op : Op := ⟨.call, args⟩
  let callFlags := op.consts.headD 0
  if callFlags &&& 0x10 ≠ 0 ∧ op.outs.all dead then tcgSetNop args dead
  else keptRound (.op .call) args op.outs op.ins
    (if callFlags &&& 0x20 = 0 then globalsLive ctx else id) dead

/-- The last case of the `switch`. -/
def plainRound (opc : GenOpcode) (args : List Nat) (dead : DeadTemps) : Round :=
  let op : Op := ⟨opc.opcode, args⟩
  let d := tcgOpDefs op.opc
  if d.sideEffects = false ∧ d.nbOargs ≠ 0 ∧ op.outs.all dead then tcgSetNop args dead
  else keptRound opc args op.outs op.ins
    (if op.opc.bbEnd then tcgLaBbEnd ctx
      else if d.callClobber then globalsLive ctx
      else id) dead

def livenessRound (opc : GenOpcode) (args : List Nat) (dead : DeadTemps) : Round :=
  match opc with
  | .op .call => callRound ctx args dead
  | .op .setLabel => ⟨opc, args, none, tcgLaBbEnd ctx dead⟩
  | .op (.debugInsnStart _) | .nopn | .end_ => ⟨opc, args, none, dead⟩
  | .op .discard => ⟨opc, args, none, Function.update dead (args.headD 0) true⟩
  | _ => plainRound ctx opc args dead

/-- The arguments of an opcode, for a walk that comes from behind them. -/
def GenOpcode.nbArgsBack (params : List Nat) : GenOpcode → Nat
  | .op .call | .nopn => params.getLastD 0
  | .op opc => (tcgOpDefs opc).nbArgs
  | .nop1 => 1
  | .nop2 => 2
  | .nop3 => 3
  | .end_ => 0

/-- The buffers after the analysis, and `op_dead_args`, unset where nothing was
stored. -/
structure Analysed where
  opcs : List GenOpcode
  params : List Nat
  deadArgs : List (Option (BitVec 16))
  deriving DecidableEq, Repr

/-- The loop, over the opcodes from the last on. -/
def livenessLoop : List GenOpcode → List Nat → DeadTemps → Except Fault Analysed
  | [], params, _ =>
    if params = [] then .ok ⟨[], [], []⟩ else .error (.aborted "%s:%d: tcg fatal error\n")
  | opc :: opcs, params, dead =>
    let rest := params.length - opc.nbArgsBack params
    if params.length < opc.nbArgsBack params then .error (.outOfBounds "gen_opparam_buf" 0)
    else
      let r := livenessRound ctx opc (params.drop rest) dead
      livenessLoop opcs (params.take rest) r.dead >>= fun before =>
        .ok ⟨before.opcs ++ [r.opc], before.params ++ r.args, before.deadArgs ++ [r.deadArgs]⟩

def tcgLivenessAnalysis (opcs : List GenOpcode) (params : List Nat) : Except Fault Analysed :=
  livenessLoop ctx opcs.reverse params fun _ => true

end

/-! ## Streams -/

/-- The arguments are those of the opcode, and their number is where the walks look
for it. -/
def GenOpcode.Fits (args : List Nat) : GenOpcode → Prop
  | .op .call => args.length = 1 + Op.nbOuts ⟨.call, args⟩ + Op.nbIns ⟨.call, args⟩ + 2 ∧
      args.getLastD 0 = args.length
  | .op opc => args.length = (tcgOpDefs opc).nbArgs
  | .nop1 => args.length = 1
  | .nop2 => args.length = 2
  | .nop3 => args.length = 3
  | .nopn => 0 < args.length ∧ args.headD 0 = args.length ∧ args.getLastD 0 = args.length
  | .end_ => False

instance (args : List Nat) (opc : GenOpcode) : Decidable (opc.Fits args) := by
  unfold GenOpcode.Fits
  split <;> infer_instance

/-- An operation as it stands in the buffers. -/
structure Instr where
  opc : GenOpcode
  args : List Nat
  fits : opc.Fits args

def Instr.toOp (i : Instr) : Op := ⟨i.opc.opcode, i.args⟩

def genOpcBuf (instrs : List Instr) : List GenOpcode := instrs.map (·.opc) ++ [.end_]

def genOpparamBuf (instrs : List Instr) : List Nat := instrs.flatMap (·.args)

/-- The arguments of an opcode, for the walk of `tcg_gen_code_common`. -/
def GenOpcode.nbArgs (params : List Nat) : GenOpcode → Nat
  | .op .call => Op.nbIns ⟨.call, params⟩ + Op.nbOuts ⟨.call, params⟩ + 2 + 1
  | .op opc => (tcgOpDefs opc).nbArgs
  | .nop1 => 1
  | .nop2 => 2
  | .nop3 => 3
  | .nopn => params.headD 0
  | .end_ => 0

/-- The operations that `tcg_gen_code_common` meets in the buffers. -/
def readStream : List GenOpcode → List Nat → List Op
  | [], _ => []
  | .end_ :: _, _ => []
  | opc :: opcs, params =>
    ⟨opc.opcode, params.take (opc.nbArgs params)⟩ ::
      readStream opcs (params.drop (opc.nbArgs params))

end QemuStm32.Tcg
