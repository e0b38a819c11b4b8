import QemuStm32.Tcg.Opcode

/-!
# What a TCG stream does

The meaning of the operations, as the section "Instruction Reference" of
`tcg/README` gives it, on a host whose memory, helpers and other instructions
are parameters. A temporary of type `i32` holds 32 bits; an operand that an
instruction reads as 64 bits is extended with zeros.
-/

namespace QemuStm32.Tcg

/-- A 64-bit word cut to a type. -/
def TCGType.norm (x : BitVec 64) : TCGType → BitVec 64
  | .i32 => (x.setWidth 32).setWidth 64
  | .i64 => x

/-! ## Arithmetic -/

def Unary.apply {n : Nat} (x : BitVec n) : Unary → BitVec n
  | .not => ~~~x
  | .neg => -x
  | .ext8s => (x.setWidth 8).signExtend n
  | .ext8u => (x.setWidth 8).setWidth n
  | .ext16s => (x.setWidth 16).signExtend n
  | .ext16u => (x.setWidth 16).setWidth n

/-- The result of an operation with two inputs; `none` where the README says
"undefined behavior", which is a shift or rotation by the width or more. -/
def Binary.apply {n : Nat} (x y : BitVec n) : Binary → Option (BitVec n)
  | .add => some (x + y)
  | .sub => some (x - y)
  | .mul => some (x * y)
  | .and => some (x &&& y)
  | .or => some (x ||| y)
  | .xor => some (x ^^^ y)
  | .shl => if y.toNat < n then some (x <<< y.toNat) else none
  | .shr => if y.toNat < n then some (x >>> y.toNat) else none
  | .sar => if y.toNat < n then some (x.sshiftRight y.toNat) else none
  | .rotl => if y.toNat < n then some (x.rotateLeft y.toNat) else none
  | .rotr => if y.toNat < n then some (x.rotateRight y.toNat) else none
  | .andc => some (x &&& ~~~y)
  | .orc => some (x ||| ~~~y)
  | .eqv => some (~~~(x ^^^ y))
  | .nand => some (~~~(x &&& y))
  | .nor => some (~~~(x ||| y))

def Unary.eval (f : Unary) (x : BitVec 64) : TCGType → BitVec 64
  | .i32 => (f.apply (x.setWidth 32)).setWidth 64
  | .i64 => f.apply x

def Binary.eval (f : Binary) (x y : BitVec 64) : TCGType → Option (BitVec 64)
  | .i32 => (f.apply (x.setWidth 32) (y.setWidth 32)).map (·.setWidth 64)
  | .i64 => f.apply x y

/-! ## The host -/

/-- What an operation with side effects leaves: the values of its outputs, the
globals, and whether it left the block by an exception. -/
structure Reply (World : Type) where
  outs : Nat → BitVec 64
  globals : Nat → Option (BitVec 64)
  world : World
  raised : Bool

/-- The host: what the operations do that the optimizer does not interpret. -/
structure Host (World : Type) where
  /-- Outputs of an operation without side effects, such as a load or a division. -/
  compute : Opcode → List (BitVec 64) → List Nat → World → Option (Nat → BitVec 64)
  /-- A store, a guest memory access or a call, with the values of the globals. -/
  perform : Opcode → List (BitVec 64) → List Nat → (Nat → Option (BitVec 64)) → World →
    Option (Reply World)
  /-- The comparison of a conditional branch. -/
  holds : Opcode → List (BitVec 64) → List Nat → Bool

/-- Only a call that is neither `TCG_CALL_CONST` nor `TCG_CALL_PURE` changes globals. -/
def Host.KeepsGlobals {World : Type} (host : Host World) (ctx : TCGContext) : Prop :=
  ∀ opc ins consts globals world reply, host.perform opc ins consts globals world = some reply →
    (opc = .call → keepsGlobals consts = true) →
      ∀ t < ctx.nbGlobals, reply.globals t = globals t

/-! ## The state -/

/-- The values of the temporaries; one without a value is not to be read. -/
@[ext]
structure Regs (ctx : TCGContext) where
  value : Nat → Option (BitVec 64)
  narrow : ∀ t x, value t = some x → (ctx.type t).norm x = x

theorem TCGType.norm_norm (type : TCGType) (x : BitVec 64) :
    type.norm (type.norm x) = type.norm x := by
  cases type with
  | i32 => simp [TCGType.norm]
  | i64 => rfl

namespace Regs
variable {ctx : TCGContext}

/-- The operand `t` of an instruction that reads `type`. -/
def read (regs : Regs ctx) (type : TCGType) (t : Nat) : Option (BitVec 64) :=
  (regs.value t).map type.norm

def write (regs : Regs ctx) (t : Nat) (x : BitVec 64) : Regs ctx where
  value := Function.update regs.value t (some ((ctx.type t).norm x))
  narrow := by
    intro u y h
    by_cases hu : u = t
    · subst hu
      rw [Function.update_self] at h
      rw [← Option.some.inj h, TCGType.norm_norm]
    · rw [Function.update_of_ne hu] at h
      exact regs.narrow u y h

/-- The outputs of an operation, from the `i`-th on. -/
def writeOuts (outs : Nat → BitVec 64) : Nat → List Nat → Regs ctx → Regs ctx
  | _, [], regs => regs
  | i, t :: ts, regs => writeOuts outs (i + 1) ts (regs.write t (outs i))

variable (regs : Regs ctx)

/-- Temporaries that lose their values. -/
def forget (lost : Nat → Bool) : Regs ctx where
  value t := if lost t then none else regs.value t
  narrow := by
    intro t x h
    split at h
    · cases h
    · exact regs.narrow t x h

/-- At the end of a basic block the normal temporaries are lost. -/
def endBlock : Regs ctx :=
  regs.forget fun t => decide (ctx.nbGlobals ≤ t) && !ctx.isLocal t

def globals (t : Nat) : Option (BitVec 64) :=
  if t < ctx.nbGlobals then regs.value t else none

def setGlobals (globals : Nat → Option (BitVec 64)) : Regs ctx where
  value t := if t < ctx.nbGlobals then (globals t).map (ctx.type t).norm else regs.value t
  narrow := by
    intro t x h
    split at h
    · obtain ⟨y, _, rfl⟩ := Option.map_eq_some_iff.mp h
      exact TCGType.norm_norm _ y
    · exact regs.narrow t x h

end Regs

inductive Exit
  | exitTb (val : Nat)
  | gotoTb (index : Nat)
  | jmp
  | raised
  deriving DecidableEq, Repr

/-- An operation with side effects and the values of its inputs. -/
structure Effect where
  opc : Opcode
  ins : List (BitVec 64)
  consts : List Nat
  deriving DecidableEq, Repr

structure Machine (ctx : TCGContext) (World : Type) where
  pc : Nat
  regs : Regs ctx
  world : World
  trace : List Effect
  exit : Option Exit

/-- Why the meaning of a stream ends: a temporary without a value is read, an
operation has undefined behavior, or there is no operation to go on with. -/
inductive Stuck
  | undefined
  | noOperation
  deriving DecidableEq, Repr

def defined {α : Type} : Option α → Except Stuck α
  | some a => .ok a
  | none => .error .undefined

/-! ## One operation -/

/-- The type in which an operation without side effects reads its inputs: the base
of a load is a host pointer, and the extensions of 32 bits read 32 bits. -/
def Opcode.readType : Opcode → TCGType
  | .ld8u _ | .ld8s _ | .ld16u _ | .ld16s _ | .ld _ => .i64
  | .ext32s | .ext32u => .i32
  | opc => opBits opc

section
variable {World : Type} {ctx : TCGContext}

def readAll (regs : Regs ctx) (type : TCGType) (ts : List Nat) : Option (List (BitVec 64)) :=
  ts.mapM (regs.read type)

variable (host : Host World)

/-- The outputs of an operation without side effects. -/
def computeOp (opc : Opcode) (ins : List (BitVec 64)) (consts : List Nat)
    (world : World) : Option (Nat → BitVec 64) :=
  match opc, ins with
  | .mov _, [x] => some fun _ => x
  | .movi _, [] => some fun _ => BitVec.ofNat 64 (consts.headD 0)
  | .unary f type, [x] => some fun _ => f.eval x type
  | .ext32s, [x] => some fun _ => (x.setWidth 32).signExtend 64
  | .ext32u, [x] => some fun _ => (x.setWidth 32).setWidth 64
  | .binary f type, [x, y] => (f.eval x y type).map fun r _ => r
  | opc, ins => host.compute opc ins consts world

/-- An operation without side effects: what it leaves in the temporaries. -/
def plainOp (regs : Regs ctx) (world : World) (op : Op) : Option (Regs ctx) :=
  match op.opc with
  | .nop | .debugInsnStart _ => some regs
  | .discard => some (regs.forget fun t => decide (t ∈ op.outs))
  | opc =>
    (readAll regs opc.readType op.ins).bind fun ins =>
      (computeOp host opc ins op.consts world).map fun outs => regs.writeOuts outs 0 op.outs

section
variable (s : Machine ctx World)

def Machine.next (regs : Regs ctx) : Machine ctx World :=
  { s with pc := s.pc + 1, regs := regs }

def Machine.record (op : Op) (ins : List (BitVec 64)) : Machine ctx World :=
  { s with trace := s.trace ++ [⟨op.opc, ins, op.consts⟩] }

/-- To the operation after a label. -/
def Machine.goto (labels : Nat → Option Nat) (label : Nat) : Except Stuck (Machine ctx World) :=
  match labels label with
  | some i => .ok { s with pc := i + 1, regs := s.regs.endBlock }
  | none => .error .noOperation

def Machine.leave (exit : Exit) : Machine ctx World :=
  { s with exit := some exit }

/-- What a store, a guest memory access or a call leaves. -/
def Machine.resume (op : Op) (reply : Reply World) : Machine ctx World :=
  let regs := s.regs.setGlobals reply.globals
  if reply.raised then { s with regs := regs, world := reply.world, exit := some .raised }
  else { s with
    pc := s.pc + 1, world := reply.world, regs := regs.writeOuts reply.outs 0 op.outs }

def performOp (op : Op) : Except Stuck (Machine ctx World) :=
  defined (readAll s.regs .i64 op.inputs) >>= fun ins =>
    defined (host.perform op.opc ins op.consts s.regs.globals s.world) >>= fun reply =>
      .ok ((s.record op ins).resume op reply)

/-- A conditional branch. -/
def branchOp (labels : Nat → Option Nat) (op : Op) (label : Nat) :
    Except Stuck (Machine ctx World) :=
  defined (readAll s.regs .i64 op.ins) >>= fun ins =>
    let s := s.record op ins
    if host.holds op.opc ins op.consts then s.goto labels label
    else .ok (s.next s.regs.endBlock)

end

/-- One operation; `linked` says whether the jump of a `goto_tb` is linked to another
block at that moment. -/
def execute (labels : Nat → Option Nat) (s : Machine ctx World)
    (linked : Bool) (op : Op) : Except Stuck (Machine ctx World) :=
  match op.opc with
  | .setLabel => .ok (s.next s.regs.endBlock)
  | .br => (s.record op []).goto labels (op.args.getD 0 0)
  | .brcond _ => branchOp host s labels op (op.args.getD 3 0)
  | .brcond2 => branchOp host s labels op (op.args.getD 5 0)
  | .jmp =>
    defined (readAll s.regs .i64 op.ins) >>= fun ins => .ok ((s.record op ins).leave .jmp)
  | .exitTb => .ok ((s.record op []).leave (.exitTb (op.args.getD 0 0)))
  | .gotoTb =>
    let s := s.record op []
    if linked then .ok (s.leave (.gotoTb (op.args.getD 0 0))) else .ok (s.next s.regs.endBlock)
  | opc =>
    if (tcgOpDefs opc).sideEffects then performOp host s op
    else defined (plainOp host s.regs s.world op) >>= fun regs => .ok (s.next regs)

/-! ## The stream -/

/-- The operation is the place of a label. -/
def Op.defines (op : Op) (label : Nat) : Bool :=
  decide (op.opc = .setLabel) && decide (op.args.headD 0 = label)

/-- The place of a label in the stream. -/
def labelIndex (ops : List Op) (label : Nat) : Option Nat :=
  ops.findIdx? fun op => op.defines label

/-- One step; a block that was left stays left. -/
def step (ops : List Op) (s : Machine ctx World) (linked : Bool) :
    Except Stuck (Machine ctx World) :=
  if s.exit.isSome then .ok s
  else
    match ops[s.pc]? with
    | none => .error .noOperation
    | some op => execute host (labelIndex ops) s linked op

end

/-! ## Well-formed streams -/

/-- What the `tcg_gen_*` functions ensure of an operation. The types agree with the
opcode, but for an input that is read as 32 bits: that is how `tcg_gen_trunc_i64_i32`
passes a 64-bit temporary to `mov_i32`, and `tcg_gen_ext_i32_i64` a 32-bit one to
`ext32s_i64`. An `and` or `or` of a temporary with itself is never emitted. -/
structure Op.WellFormed (ctx : TCGContext) (op : Op) : Prop where
  length : op.args.length = op.nbHead + op.nbOuts + op.nbIns + (tcgOpDefs op.opc).nbCargs
  temps : ∀ t ∈ op.outs ++ op.ins, t < ctx.nbTemps
  outType : ∀ t ∈ op.outs, match op.opc with
    | .mov type | .movi type | .unary _ type | .binary _ type => ctx.type t = type
    | .ext32s | .ext32u => ctx.type t = .i64
    | _ => True
  inType : (tcgOpDefs op.opc).sideEffects = false → op.opc.readType = .i64 →
    ∀ t ∈ op.ins, ctx.type t = .i64
  distinct : ∀ f type, op.opc = .binary f type → f = .and ∨ f = .or → op.ins.Nodup

def WellFormed (ctx : TCGContext) (ops : List Op) : Prop := ∀ op ∈ ops, op.WellFormed ctx

end QemuStm32.Tcg
