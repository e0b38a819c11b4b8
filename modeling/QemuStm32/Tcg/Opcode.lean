import Mathlib


/-!
# TCG operations

The intermediate language of the code generator, on hosts with registers of 32 and
of 64 bits: the opcodes of `tcg-opc.h` with their definitions, operations with their
arguments, and the temporaries of a translation block.
-/

namespace QemuStm32.Tcg

inductive TCGType
  | i32
  | i64
  deriving DecidableEq, Repr

/-- The operations `x_i32` and `x_i64` with one input that the optimizer folds. -/
inductive Unary
  | not | neg | ext8s | ext8u | ext16s | ext16u
  deriving DecidableEq, Repr

/-- The operations `x_i32` and `x_i64` with two inputs that the optimizer folds. -/
inductive Binary
  | add | sub | mul | and | or | xor
  | shl | shr | sar | rotl | rotr
  | andc | orc | eqv | nand | nor
  deriving DecidableEq, Repr

/-- How many temporaries or constants hold a value: a 64-bit value takes two on a 32-bit
host. -/
inductive Words
  | one
  | two
  deriving DecidableEq, Repr

def Words.count : Words → Nat
  | one => 1
  | two => 2

/-- `TCGOpcode`; an opcode that exists as `x_i32` and as `x_i64` takes its type
as a parameter. A guest memory access takes the words of its address, and with 64 bits
those of its data; 32-bit hosts have the five opcodes from `add2` on. -/
inductive Opcode
  | nop
  | discard
  | setLabel
  | call
  | jmp
  | br
  | mov (type : TCGType)
  | movi (type : TCGType)
  | setcond (type : TCGType)
  | ld8u (type : TCGType)
  | ld8s (type : TCGType)
  | ld16u (type : TCGType)
  | ld16s (type : TCGType)
  | ld32u
  | ld32s
  | ld (type : TCGType)
  | st8 (type : TCGType)
  | st16 (type : TCGType)
  | st32
  | st (type : TCGType)
  | unary (f : Unary) (type : TCGType)
  | binary (f : Binary) (type : TCGType)
  | ext32s
  | ext32u
  | div (type : TCGType)
  | divu (type : TCGType)
  | rem (type : TCGType)
  | remu (type : TCGType)
  | div2 (type : TCGType)
  | divu2 (type : TCGType)
  | deposit (type : TCGType)
  | brcond (type : TCGType)
  | add2
  | sub2
  | brcond2
  | mulu2
  | setcond2
  | bswap16 (type : TCGType)
  | bswap32 (type : TCGType)
  | bswap64
  | debugInsnStart (pc : Words)
  | exitTb
  | gotoTb
  | qemuLd8u (addr : Words)
  | qemuLd8s (addr : Words)
  | qemuLd16u (addr : Words)
  | qemuLd16s (addr : Words)
  | qemuLd32 (addr : Words)
  | qemuLd32u
  | qemuLd32s
  | qemuLd64 (data addr : Words)
  | qemuSt8 (addr : Words)
  | qemuSt16 (addr : Words)
  | qemuSt32 (addr : Words)
  | qemuSt64 (data addr : Words)
  deriving DecidableEq, Repr

/-- The fields of `TCGOpDef` that the optimizer reads. -/
structure TCGOpDef where
  nbOargs : Nat
  nbIargs : Nat
  nbCargs : Nat
  callClobber : Bool
  sideEffects : Bool
  is64bit : Bool
  deriving DecidableEq, Repr

variable (nbOargs nbIargs nbCargs : Nat)

/-- An operation without side effects, `x_i32` or `x_i64`. -/
def TCGOpDef.plain (type : TCGType) : TCGOpDef :=
  ⟨nbOargs, nbIargs, nbCargs, false, false, type == .i64⟩

/-- An operation with `TCG_OPF_SIDE_EFFECTS`, `x_i32` or `x_i64`. -/
def TCGOpDef.effect (type : TCGType) : TCGOpDef :=
  ⟨nbOargs, nbIargs, nbCargs, false, true, type == .i64⟩

/-- A guest memory access, `TCG_OPF_CALL_CLOBBER | TCG_OPF_SIDE_EFFECTS`. -/
def TCGOpDef.access : TCGOpDef :=
  ⟨nbOargs, nbIargs, nbCargs, true, true, false⟩

/-- `tcg_op_defs`. -/
def tcgOpDefs : Opcode → TCGOpDef
  | .nop => .plain 0 0 0 .i32
  | .discard => .plain 1 0 0 .i32
  | .setLabel => .plain 0 0 1 .i32
  | .call => .effect 0 1 2 .i32
  | .jmp => .effect 0 1 0 .i32
  | .br => .effect 0 0 1 .i32
  | .mov t => .plain 1 1 0 t
  | .movi t => .plain 1 0 1 t
  | .setcond t => .plain 1 2 1 t
  | .ld8u t => .plain 1 1 1 t
  | .ld8s t => .plain 1 1 1 t
  | .ld16u t => .plain 1 1 1 t
  | .ld16s t => .plain 1 1 1 t
  | .ld32u => .plain 1 1 1 .i64
  | .ld32s => .plain 1 1 1 .i64
  | .ld t => .plain 1 1 1 t
  | .st8 t => .effect 0 2 1 t
  | .st16 t => .effect 0 2 1 t
  | .st32 => .effect 0 2 1 .i64
  | .st t => .effect 0 2 1 t
  | .unary _ t => .plain 1 1 0 t
  | .binary _ t => .plain 1 2 0 t
  | .ext32s => .plain 1 1 0 .i64
  | .ext32u => .plain 1 1 0 .i64
  | .div t => .plain 1 2 0 t
  | .divu t => .plain 1 2 0 t
  | .rem t => .plain 1 2 0 t
  | .remu t => .plain 1 2 0 t
  | .div2 t => .plain 2 3 0 t
  | .divu2 t => .plain 2 3 0 t
  | .deposit t => .plain 1 2 2 t
  | .brcond t => .effect 0 2 2 t
  | .add2 => .plain 2 4 0 .i32
  | .sub2 => .plain 2 4 0 .i32
  | .brcond2 => .effect 0 4 2 .i32
  | .mulu2 => .plain 2 2 0 .i32
  | .setcond2 => .plain 1 4 1 .i32
  | .bswap16 t => .plain 1 1 0 t
  | .bswap32 t => .plain 1 1 0 t
  | .bswap64 => .plain 1 1 0 .i64
  | .debugInsnStart pc => .plain 0 0 pc.count .i32
  | .exitTb => .effect 0 0 1 .i32
  | .gotoTb => .effect 0 0 1 .i32
  | .qemuLd8u addr => .access 1 addr.count 1
  | .qemuLd8s addr => .access 1 addr.count 1
  | .qemuLd16u addr => .access 1 addr.count 1
  | .qemuLd16s addr => .access 1 addr.count 1
  | .qemuLd32 addr => .access 1 addr.count 1
  | .qemuLd32u => .access 1 1 1
  | .qemuLd32s => .access 1 1 1
  | .qemuLd64 data addr => .access data.count addr.count 1
  | .qemuSt8 addr => .access 0 (1 + addr.count) 1
  | .qemuSt16 addr => .access 0 (1 + addr.count) 1
  | .qemuSt32 addr => .access 0 (1 + addr.count) 1
  | .qemuSt64 data addr => .access 0 (data.count + addr.count) 1

/-- `op_bits`. -/
def opBits (op : Opcode) : TCGType := if (tcgOpDefs op).is64bit then .i64 else .i32

/-- An operation of the stream. The source keeps all opcodes in `gen_opc_buf` and
all arguments in `gen_opparam_buf`; here every operation has its own. An argument
is the number of a temporary or a constant, `TCGArg` in both cases. -/
structure Op where
  opc : Opcode
  args : List Nat
  deriving DecidableEq, Repr

/-! ## The arguments of an operation

A `call` starts with a word that holds the numbers of its outputs and inputs. -/

variable (op : Op)

def Op.nbHead : Nat := if op.opc = .call then 1 else 0

def Op.nbOuts : Nat :=
  if op.opc = .call then op.args.headD 0 >>> 16 else (tcgOpDefs op.opc).nbOargs

def Op.nbIns : Nat :=
  if op.opc = .call then op.args.headD 0 % 2 ^ 16 else (tcgOpDefs op.opc).nbIargs

def Op.outs : List Nat := (op.args.drop op.nbHead).take op.nbOuts

def Op.ins : List Nat := (op.args.drop (op.nbHead + op.nbOuts)).take op.nbIns

/-- `TCG_CALL_DUMMY_ARG`, which `tcg_gen_callN` puts before a pair of arguments that has
to be aligned: `(TCGArg)(-1)`, here with 64 bits for every host. -/
def callDummyArg : Nat := 2 ^ 64 - 1

/-- The inputs that are temporaries. -/
def Op.inputs : List Nat := op.ins.filter (· ≠ callDummyArg)

def Op.consts : List Nat := op.args.drop (op.nbHead + op.nbOuts + op.nbIns)

/-- `TCG_CALL_CONST | TCG_CALL_PURE` in the flags of a call, the first of its constants. -/
def keepsGlobals (consts : List Nat) : Bool := consts.headD 0 &&& 0x30 != 0

/-! ## Temporaries -/

structure TCGTemp where
  type : TCGType
  tempLocal : Bool
  deriving DecidableEq, Repr

/-- The fields of `TCGContext` that the optimizer reads: globals come first, then
local and normal temporaries in any order. -/
structure TCGContext where
  nbGlobals : Nat
  nbTemps : Nat
  temps : Nat → TCGTemp

def TCGContext.type (ctx : TCGContext) (t : Nat) : TCGType := (ctx.temps t).type

/-- `tcg_arg_is_local`. -/
def TCGContext.isLocal (ctx : TCGContext) (t : Nat) : Bool := (ctx.temps t).tempLocal

end QemuStm32.Tcg
