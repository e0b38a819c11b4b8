import QemuStm32.Tcg.Opcode
import QemuStm32.Fault

/-!
# The optimizer

`tcg/optimize.c`: one pass over the stream that propagates constants and copies
within a basic block and folds constant expressions.
-/

namespace QemuStm32.Tcg

/-! ## What is known about the temporaries -/

inductive TempState
  | undef
  | const
  | copy
  | hasCopy
  | any
  deriving DecidableEq, Repr

/-- `struct tcg_temp_info`. -/
structure TempInfo where
  state : TempState := .undef
  prevCopy : Nat := 0
  nextCopy : Nat := 0
  val : Nat := 0
  deriving DecidableEq, Repr

abbrev Temps := Nat → TempInfo

/-- `memset(temps, 0, ...)`. -/
def Temps.cleared : Temps := fun _ => {}

/-! Assignments to one field of one entry. -/

section
variable (temps : Temps)

def Temps.setState (t : Nat) (state : TempState) : Temps :=
  Function.update temps t { temps t with state := state }

def Temps.setPrev (t prev : Nat) : Temps :=
  Function.update temps t { temps t with prevCopy := prev }

def Temps.setNext (t next : Nat) : Temps :=
  Function.update temps t { temps t with nextCopy := next }

def Temps.setVal (t val : Nat) : Temps :=
  Function.update temps t { temps t with val := val }

/-- The temporaries the loops of `reset_temp` visit: from `i` along `next_copy` up to
`temp`. No loop changes a `next_copy`. -/
def copiesFrom (temps : Temps) (temp : Nat) : Nat → Nat → Except Fault (List Nat)
  | 0, _ => .error .endlessLoop
  | fuel + 1, i =>
    if i = temp then .ok []
    else copiesFrom temps temp fuel (temps i).nextCopy >>= fun rest => .ok (i :: rest)

/-- Take `temp` out of its ring. -/
def unlinkCopy (temp : Nat) : Temps :=
  let temps := temps.setPrev (temps temp).nextCopy (temps temp).prevCopy
  temps.setNext (temps temp).prevCopy (temps temp).nextCopy

/-- The end of `reset_temp`: a representative that is left alone is one no longer. -/
def dropSingle : Option Nat → Temps
  | none => temps
  | some base => if (temps base).nextCopy = base then temps.setState base .any else temps

/-- The two loops of `reset_temp` over the other members of the ring: the first
member that is not a global becomes the representative. -/
def electBase (members : List Nat) : Option Nat → Temps
  | none => members.foldl (fun temps i => temps.setState i .any) temps
  | some base => members.foldl (fun temps i => temps.setVal i base) (temps.setState base .hasCopy)

end

section
variable (ctx : TCGContext) (temps : Temps)

def resetTemp (temp : Nat) : Except Fault Temps :=
  match (temps temp).state with
  | .hasCopy =>
    copiesFrom temps temp (ctx.nbTemps + 1) (temps temp).nextCopy >>= fun members =>
      let newBase := members.find? fun i => decide (ctx.nbGlobals ≤ i)
      .ok (dropSingle ((unlinkCopy (electBase temps members newBase) temp).setState temp .any)
        newBase)
  | .copy =>
    .ok (dropSingle ((unlinkCopy temps temp).setState temp .any) (some (temps temp).val))
  | _ => .ok (temps.setState temp .any)

/-- A ring for `src`, if it has none. -/
def startRing (src : Nat) : Temps :=
  if (temps src).state ≠ .hasCopy then
    ((temps.setState src .hasCopy).setNext src src).setPrev src src
  else temps

/-- `dst` joins the ring of `src`, right after it. -/
def linkCopy (dst src : Nat) : Temps :=
  let temps := startRing temps src
  let temps := (temps.setState dst .copy).setVal dst src
  let temps := temps.setNext dst (temps src).nextCopy
  let temps := temps.setPrev dst src
  let temps := temps.setPrev (temps dst).nextCopy dst
  temps.setNext src dst

/-- The test of `tcg_opt_gen_mov`: copies are not tracked for globals, nor between a
local and a normal temporary. -/
def copyable (dst src : Nat) : Bool :=
  decide (ctx.nbGlobals ≤ src) && decide (ctx.nbGlobals ≤ dst) &&
    (ctx.isLocal src == ctx.isLocal dst)

def tcgOptGenMov (dst src : Nat) : Except Fault Temps :=
  resetTemp ctx temps dst >>= fun temps =>
    if (temps src).state = .copy then
      .error (.assertFailed "temps[src].state != TCG_TEMP_COPY")
    else if copyable ctx dst src then
      if (temps src).state = .const then
        .error (.assertFailed "temps[src].state != TCG_TEMP_CONST")
      else .ok (linkCopy temps dst src)
    else .ok temps

def tcgOptGenMovi (dst val : Nat) : Except Fault Temps :=
  resetTemp ctx temps dst >>= fun temps =>
    .ok ((temps.setState dst .const).setVal dst val)

/-! ## Constant folding -/

/-- What the compiled optimizer computes for a shift whose count is not below the
width, which C leaves undefined. -/
structure HostShift where
  shl : (w : Nat) → BitVec w → Nat → BitVec w
  shr : (w : Nat) → BitVec w → Nat → BitVec w
  sar : (w : Nat) → BitVec w → Nat → BitVec w

variable (h : HostShift)

def HostShift.left {w : Nat} (x : BitVec w) (count : Nat) : BitVec w :=
  if count < w then x <<< count else h.shl w x count

def HostShift.right {w : Nat} (x : BitVec w) (count : Nat) : BitVec w :=
  if count < w then x >>> count else h.shr w x count

def HostShift.arith {w : Nat} (x : BitVec w) (count : Nat) : BitVec w :=
  if count < w then x.sshiftRight count else h.sar w x count

section
variable (op : Opcode)

/-- `do_constant_folding_2`. -/
def doConstantFolding2 (x y : BitVec 64) : Except Fault (BitVec 64) :=
  match op with
  | .binary .add _ => .ok (x + y)
  | .binary .sub _ => .ok (x - y)
  | .binary .mul _ => .ok (x * y)
  | .binary .and _ => .ok (x &&& y)
  | .binary .or _ => .ok (x ||| y)
  | .binary .xor _ => .ok (x ^^^ y)
  | .binary .shl .i32 => .ok ((h.left (x.setWidth 32) (y.setWidth 32).toNat).setWidth 64)
  | .binary .shl .i64 => .ok (h.left x y.toNat)
  | .binary .shr .i32 => .ok ((h.right (x.setWidth 32) (y.setWidth 32).toNat).setWidth 64)
  | .binary .shr .i64 => .ok (h.right x y.toNat)
  | .binary .sar .i32 => .ok ((h.arith (x.setWidth 32) (y.setWidth 32).toNat).signExtend 64)
  | .binary .sar .i64 => .ok (h.arith x y.toNat)
  | .binary .rotr .i32 =>
    .ok ((h.left (x.setWidth 32) (32 - y).toNat ||| h.right (x.setWidth 32) y.toNat).setWidth 64)
  | .binary .rotr .i64 => .ok (h.left x (64 - y).toNat ||| h.right x y.toNat)
  | .binary .rotl .i32 =>
    .ok ((h.left (x.setWidth 32) y.toNat ||| h.right (x.setWidth 32) (32 - y).toNat).setWidth 64)
  | .binary .rotl .i64 => .ok (h.left x y.toNat ||| h.right x (64 - y).toNat)
  | .unary .not _ => .ok (~~~x)
  | .unary .neg _ => .ok (-x)
  | .binary .andc _ => .ok (x &&& ~~~y)
  | .binary .orc _ => .ok (x ||| ~~~y)
  | .binary .eqv _ => .ok (~~~(x ^^^ y))
  | .binary .nand _ => .ok (~~~(x &&& y))
  | .binary .nor _ => .ok (~~~(x ||| y))
  | .unary .ext8s _ => .ok ((x.setWidth 8).signExtend 64)
  | .unary .ext16s _ => .ok ((x.setWidth 16).signExtend 64)
  | .unary .ext8u _ => .ok ((x.setWidth 8).setWidth 64)
  | .unary .ext16u _ => .ok ((x.setWidth 16).setWidth 64)
  | .ext32s => .ok ((x.setWidth 32).signExtend 64)
  | .ext32u => .ok ((x.setWidth 32).setWidth 64)
  | _ => .error (.aborted "Unrecognized operation %d in do_constant_folding.\n")

/-- `do_constant_folding`, on the values of two `TCGArg`. -/
def doConstantFolding (x y : Nat) : Except Fault Nat :=
  doConstantFolding2 h op (BitVec.ofNat 64 x) (BitVec.ofNat 64 y) >>= fun res =>
    .ok (match opBits op with
      | .i32 => (res &&& 0xffffffff).toNat
      | .i64 => res.toNat)

/-! ## The pass -/

def opToMovi : Opcode := .movi (opBits op)

def opToMov : Opcode := .mov (opBits op)

/-- Copy propagation for one argument. -/
def propagate (arg : Nat) : Nat :=
  if (temps arg).state = .copy then (temps arg).val else arg

/-- Copy propagation: the inputs of an operation without side effects. -/
def propagateCopies (op : Op) : List Nat :=
  let d := tcgOpDefs op.opc
  if d.callClobber || d.sideEffects then op.args
  else op.args.take d.nbOargs ++ ((op.args.drop d.nbOargs).take d.nbIargs).map (propagate temps) ++
    op.args.drop (d.nbOargs + d.nbIargs)

/-- The operations whose constant argument is made the second one. -/
def Binary.commutes : Binary → Bool
  | .add | .mul | .and | .or | .xor | .eqv | .nand | .nor => true
  | _ => false

/-- The operations that return their first argument when the second is 0. -/
def Binary.zeroNeutral : Binary → Bool
  | .add | .sub | .shl | .shr | .sar | .rotl | .rotr => true
  | _ => false

def isZero (t : Nat) : Bool :=
  decide ((temps t).state = .const ∧ (temps t).val = 0)

/-- An operation that returns `src`: nothing at all, or a move. -/
def simplifyToMov (dst src : Nat) (same : Bool) : Except Fault (Temps × Op) :=
  if same then .ok (temps, ⟨.nop, []⟩)
  else tcgOptGenMov ctx temps dst src >>= fun temps => .ok (temps, ⟨opToMov op, [dst, src]⟩)

/-- The constant `val` in place of the operation. -/
def simplifyToMovi (dst val : Nat) : Except Fault (Temps × Op) :=
  tcgOptGenMovi ctx temps dst val >>= fun temps => .ok (temps, ⟨opToMovi op, [dst, val]⟩)

end

/-- The second `switch`: the expressions that are simplified, after which the loop
continues with the next operation. -/
def simplifyBinary (f : Binary) (type : TCGType)
    (dst a b : Nat) : Option (Except Fault (Temps × Op)) :=
  if f.zeroNeutral then
    if (temps a).state ≠ .const ∧ isZero temps b then
      some (simplifyToMov ctx temps (.binary f type) dst a
        (decide (((temps dst).state = .copy ∧ (temps dst).val = a) ∨ dst = a)))
    else none
  else if f = .mul then
    if isZero temps b then some (simplifyToMovi ctx temps (.binary f type) dst 0) else none
  else if f = .or ∨ f = .and then
    if a = b then some (simplifyToMov ctx temps (.binary f type) dst a (decide (a = dst)))
    else none
  else none

/-- The third `switch`, for an operation that stays as it is: its outputs are reset. -/
def keepOp (op : Op) (outs : List Nat) : Except Fault (Temps × Op) :=
  outs.foldlM (resetTemp ctx) temps >>= fun temps => .ok (temps, op)

def foldUnary (ctx : TCGContext) (temps : Temps) (op : Opcode) (dst a : Nat) :
    Except Fault (Temps × Op) :=
  if (temps a).state = .const then
    doConstantFolding h op (temps a).val 0 >>= fun val => simplifyToMovi ctx temps op dst val
  else keepOp ctx temps ⟨op, [dst, a]⟩ [dst]

def foldBinary (ctx : TCGContext) (temps : Temps) (f : Binary) (type : TCGType)
    (dst a b : Nat) : Except Fault (Temps × Op) :=
  let swap := f.commutes && decide ((temps a).state = .const)
  let x := if swap then b else a
  let y := if swap then a else b
  match simplifyBinary ctx temps f type dst x y with
  | some done => done
  | none =>
    if (temps x).state = .const ∧ (temps y).state = .const then
      doConstantFolding h (.binary f type) (temps x).val (temps y).val >>= fun val =>
        simplifyToMovi ctx temps (.binary f type) dst val
    else keepOp ctx temps ⟨.binary f type, [dst, x, y]⟩ [dst]

def foldMov (type : TCGType) (dst src : Nat) : Except Fault (Temps × Op) :=
  if ((temps src).state = .copy ∧ (temps src).val = dst) ∨ dst = src then
    .ok (temps, ⟨.nop, []⟩)
  else if (temps src).state ≠ .const then
    tcgOptGenMov ctx temps dst src >>= fun temps => .ok (temps, ⟨.mov type, [dst, src]⟩)
  else simplifyToMovi ctx temps (.mov type) dst (temps src).val

/-- A call resets the globals it may change and its outputs. -/
def foldCall (op : Op) : Except Fault (Temps × Op) :=
  (if keepsGlobals op.consts then .ok temps
    else (List.range ctx.nbGlobals).foldlM (resetTemp ctx) temps) >>= fun temps =>
    keepOp ctx temps op op.outs

end

/-- One round of the loop of `tcg_constant_folding`. -/
def foldOp (h : HostShift) (ctx : TCGContext) (temps : Temps) (op : Op) :
    Except Fault (Temps × Op) :=
  let args := propagateCopies temps op
  match op.opc with
  | .mov type =>
    match args with
    | [dst, src] => foldMov ctx temps type dst src
    | _ => .error (.outOfBounds "args" args.length)
  | .movi type =>
    match args with
    | [dst, val] => simplifyToMovi ctx temps (.movi type) dst val
    | _ => .error (.outOfBounds "args" args.length)
  | .unary f type =>
    match args with
    | [dst, a] => foldUnary h ctx temps (.unary f type) dst a
    | _ => .error (.outOfBounds "args" args.length)
  | .ext32s =>
    match args with
    | [dst, a] => foldUnary h ctx temps .ext32s dst a
    | _ => .error (.outOfBounds "args" args.length)
  | .ext32u =>
    match args with
    | [dst, a] => foldUnary h ctx temps .ext32u dst a
    | _ => .error (.outOfBounds "args" args.length)
  | .binary f type =>
    match args with
    | [dst, a, b] => foldBinary h ctx temps f type dst a b
    | _ => .error (.outOfBounds "args" args.length)
  | .call => foldCall ctx temps op
  | .setLabel | .jmp | .br | .brcond _ => .ok (.cleared, ⟨op.opc, args⟩)
  | opc => keepOp ctx temps ⟨opc, args⟩ (args.take (tcgOpDefs opc).nbOargs)

/-- The loop from what is known before the first of the operations. -/
def foldOps (h : HostShift) (ctx : TCGContext) : Temps → List Op → Except Fault (List Op)
  | _, [] => .ok []
  | temps, op :: ops =>
    foldOp h ctx temps op >>= fun folded =>
      foldOps h ctx folded.1 ops >>= fun rest => .ok (folded.2 :: rest)

def tcgConstantFolding (h : HostShift) (ctx : TCGContext) (ops : List Op) :
    Except Fault (List Op) :=
  foldOps h ctx .cleared ops

end QemuStm32.Tcg
