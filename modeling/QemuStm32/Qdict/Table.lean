import QemuStm32.Fault
import QemuStm32.Json.QObject
import QemuStm32.Lib.Doubly

/-!
# The hash table of a QDict

`qdict.c` with the entries as the heap has them: each is an address with a key,
a value and the links of its bucket's list. Reading an entry that has been freed
is a fault.
-/

namespace QemuStm32.Qdict

open Doubly SlotLists Json

/-- `QDict`. The heads in `links` are the buckets of `table`; addresses are given out in
turn, and `entries` has the key and value of those in use. -/
structure QDict (V : Type) where
  size : Nat
  links : Links Nat Nat
  entries : Nat → Option (Bytes × V)
  allocated : Nat

/-- `QDICT_BUCKET_MAX` and `tdb_hash(key) % QDICT_BUCKET_MAX`. -/
def bucketMax : Nat := qdictBucketMax.toNat

@[irreducible] def bucketOf (key : Bytes) : Nat := (bucket key).toNat

section
variable {V : Type}

def qdictNew : QDict V := ⟨0, ⟨⟨fun _ => none, fun _ => none⟩, fun _ => .head 0⟩, fun _ => none, 0⟩

section
variable (d : QDict V)

/-- The key and value at an address. -/
def deref (p : Nat) : Except Fault (Bytes × V) :=
  match d.entries p with
  | some e => .ok e
  | none => .error (.outOfBounds "heap" p)

/-- `QLIST_NEXT`. -/
def qlistNext (p : Nat) : Option Nat := d.links.pointers.next p

/-- `QLIST_FIRST` of a bucket. -/
def qlistFirst (bucket : Nat) : Option Nat := d.links.pointers.first bucket

/-- The loop of `qdict_find`. A list has no more elements than addresses were given out. -/
def findFrom (d : QDict V) (key : Bytes) : Nat → Option Nat → Except Fault (Option Nat)
  | 0, _ => .error .endlessLoop
  | _ + 1, none => .ok none
  | n + 1, some p => do
    let e ← deref d p
    if e.1 = key then .ok (some p) else findFrom d key n (qlistNext d p)

section
variable (key : Bytes)

def qdictFind (bucket : Nat) : Except Fault (Option Nat) :=
  findFrom d key (d.allocated + 1) (qlistFirst d bucket)

def allocEntry (value : V) : QDict V :=
  { d with
    entries := Function.update d.entries d.allocated (some (key, value))
    allocated := d.allocated + 1 }

/-- The two branches of `qdict_put_obj`. -/
def replaceValue (p : Nat) (value : V) : Except Fault (QDict V) := do
  let e ← deref d p
  .ok { d with entries := Function.update d.entries p (some (e.1, value)) }

def insertEntry (value : V) (bucket : Nat) : QDict V :=
  let grown := allocEntry d key value
  { grown with links := grown.links.insertHead bucket d.allocated, size := grown.size + 1 }

def qdictPutObj (value : V) : Except Fault (QDict V) := do
  let entry ← qdictFind d key (bucketOf key)
  match entry with
  | some p => replaceValue d p value
  | none => .ok (insertEntry d key value (bucketOf key))

def qdictGet : Except Fault (Option V) := do
  let entry ← qdictFind d key (bucketOf key)
  match entry with
  | some p => do
    let e ← deref d p
    .ok (some e.2)
  | none => .ok none

def qdictHaskey : Except Fault Bool := do
  let entry ← qdictFind d key (bucketOf key)
  .ok entry.isSome

def qdictSize : Nat := d.size

/-- `QLIST_REMOVE` and `qentry_destroy`. -/
def dropEntry (p : Nat) : Except Fault (QDict V) := do
  let _ ← deref d p
  .ok { d with
    links := d.links.remove p
    entries := Function.update d.entries p none
    size := d.size - 1 }

def qdictDel : Except Fault (QDict V) := do
  let entry ← qdictFind d key (bucketOf key)
  match entry with
  | some p => dropEntry d p
  | none => .ok d

end

/-! ## Iteration -/

/-- The loop of `qdict_iter` over one bucket; `iter` gets and returns what it keeps. -/
def iterFrom {σ : Type} (d : QDict V) (iter : σ → Bytes → V → σ) :
    Nat → Option Nat → σ → Except Fault σ
  | 0, _, _ => .error .endlessLoop
  | _ + 1, none, kept => .ok kept
  | n + 1, some p, kept => do
    let e ← deref d p
    iterFrom d iter n (qlistNext d p) (iter kept e.1 e.2)

def qdictIter {σ : Type} (d : QDict V) (iter : σ → Bytes → V → σ) (kept : σ) : Except Fault σ :=
  (List.range bucketMax).foldlM
    (fun kept i => iterFrom d iter (d.allocated + 1) (qlistFirst d i) kept) kept

def qdictNextEntry (firstBucket : Nat) : Option Nat :=
  (List.range' firstBucket (bucketMax - firstBucket)).findSome? (qlistFirst d)

def qdictFirst : Option Nat := qdictNextEntry d 0

def qdictNext (p : Nat) : Except Fault (Option Nat) := do
  let e ← deref d p
  match qlistNext d p with
  | some q => .ok (some q)
  | none => .ok (qdictNextEntry d (bucketOf e.1 + 1))

/-- What a loop from `qdict_first` with `qdict_next` sees in at most `n` rounds. -/
def walkFrom (d : QDict V) : Nat → Option Nat → Except Fault (List (Bytes × V))
  | 0, _ => .error .endlessLoop
  | _ + 1, none => .ok []
  | n + 1, some p => do
    let e ← deref d p
    let following ← qdictNext d p
    let rest ← walkFrom d n following
    .ok (e :: rest)

/-! ## Sequences of calls -/

inductive Call (V : Type)
  | putObj (key : Bytes) (value : V)
  | del (key : Bytes)
  | get (key : Bytes)
  | haskey (key : Bytes)

inductive Reply (V : Type)
  | done
  | object (value : Option V)
  | present (answer : Bool)

def call : Call V → Except Fault (QDict V × Reply V)
  | .putObj key value => do
    let d ← qdictPutObj d key value
    .ok (d, .done)
  | .del key => do
    let d ← qdictDel d key
    .ok (d, .done)
  | .get key => do
    let value ← qdictGet d key
    .ok (d, .object value)
  | .haskey key => do
    let answer ← qdictHaskey d key
    .ok (d, .present answer)

end

def callAll : QDict V → List (Call V) → Except Fault (QDict V × List (Reply V))
  | d, [] => .ok (d, [])
  | d, c :: calls => do
    let (d, reply) ← call d c
    let (d, replies) ← callAll d calls
    .ok (d, reply :: replies)

end

end QemuStm32.Qdict
