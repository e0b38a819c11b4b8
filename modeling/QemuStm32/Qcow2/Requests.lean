import QemuStm32.Lib.Intrusive
import QemuStm32.Qcow2.Layout

/-!
# Concurrent write requests

`qcow2_co_writev` and `run_dependent_requests` of `block/qcow2.c` and
`qcow2_alloc_cluster_offset` of `block/qcow2-cluster.c`. Each request is a
coroutine; it gives up the lock while it waits for another request and while its
data is written, and a step of the model is what a request does between two such
points. Unlocking and locking again at once, as `run_dependent_requests` does,
lets no other coroutine run.

What the tables and the image file answer in such a step is given with the step.
-/

namespace QemuStm32.Qcow2

open Intrusive

abbrev Errno := Nat

/-- `QCowL2Meta`, without its links. -/
structure L2Meta where
  offset : Nat
  clusterOffset : BitVec 64
  nStart : Nat
  nbAvailable : Nat
  nbClusters : Nat
  deriving DecidableEq, Repr

/-- What `qcow2_alloc_cluster_offset` keeps while it waits. -/
structure Pass where
  offset : Nat
  nStart : Nat
  nEnd : Nat
  i : Nat
  deriving DecidableEq, Repr

/-- Where a request is when it does not run. -/
inductive Phase
  | absent
  | issued
  | waiting (old : Nat) (pass : Pass)
  | woken (pass : Pass)
  | writing
  | done (ret : Option Errno)
  deriving DecidableEq, Repr

/-- The variables of `qcow2_co_writev`. -/
structure Request where
  sectorNum : Nat
  remainingSectors : Nat
  curNrSectors : Nat
  l2meta : L2Meta
  deriving DecidableEq, Repr

/-- The requests by number, and the list `cluster_allocs`. -/
structure Writes where
  request : Nat → Request
  phase : Nat → Phase
  clusterAllocs : Links Nat
  /-- No request has this number or a higher one. -/
  bound : Nat

/-- What is answered to a step: by the write of its data, by linking the clusters
in the L2 table, by `get_cluster_table`, by `qcow2_alloc_clusters` and by
`qcow2_cache_put`. `table` has the L2 entries from the request's cluster on. -/
structure Answers where
  write : Option Errno
  link : Option Errno
  lookup : Option Errno
  table : Nat → BitVec 64
  alloc : Except Errno Nat
  put : Option Errno

namespace Writes

variable (s : Writes)

def setPhase (r : Nat) (p : Phase) : Writes :=
  { s with phase := Function.update s.phase r p }

def setRequest (r : Nat) (q : Request) : Writes :=
  { s with request := Function.update s.request r q }

def setMeta (r : Nat) (m : L2Meta) : Writes :=
  s.setRequest r { s.request r with l2meta := m }

/-- `QLIST_REMOVE(m, next_in_flight)` for the record of `r`. -/
def removeAlloc (r : Nat) : Except Fault Writes :=
  match s.clusterAllocs.remove r with
  | some q => .ok { s with clusterAllocs := q }
  | none => .error (.outOfBounds "le_prev" 0)

/-- The requests that wait for `r` may go on. -/
def wake (r : Nat) : Writes :=
  { s with
    phase := fun i =>
      match s.phase i with
      | .waiting old pass => if old = r then .woken pass else .waiting old pass
      | p => p }

end Writes

variable (g : Geometry) (s : Writes)

section
variable (r : Nat)

def runDependentRequests : Except Fault Writes :=
  (if (s.request r).l2meta.nbClusters ≠ 0 then s.removeAlloc r else .ok s) >>= fun s =>
    .ok (s.wake r)

/-- From the label `fail` on. -/
def finish (ret : Option Errno) : Except Fault Writes :=
  runDependentRequests s r >>= fun s => .ok (s.setPhase r (.done ret))

/-! ## Allocating clusters -/

/-- The loop that asks how many clusters are available. It goes on only after a
free entry. -/
def availableClusters (clusterSize nbClusters : Nat) (table : Nat → BitVec 64) :
    Nat → Nat → Except Fault Nat
  | 0, _ => .error .endlessLoop
  | rounds + 1, i =>
    if i < nbClusters then
      let i := i + countContiguousClusters (nbClusters - i) clusterSize table i 0#64
      if i ≥ nbClusters ∨ table i ≠ 0#64 then .ok i
      else
        let i := i + countContiguousFreeClusters (nbClusters - i) fun j => table (i + j)
        if i ≥ nbClusters then .ok i
        else if table i &&& oflagCopied ≠ 0#64 ∨ table i &&& oflagCompressed ≠ 0#64 then .ok i
        else availableClusters clusterSize nbClusters table rounds i
    else .ok i

/-- The loop over the requests in flight: how many clusters are left, or the
request to wait for. -/
def checkInFlight (g : Geometry) (s : Writes) (start : Nat) : List Nat → Nat → Except Nat Nat
  | [], nbClusters => .ok nbClusters
  | old :: rest, nbClusters =>
    let oldStart := (s.request old).l2meta.offset / g.clusterSize
    let oldEnd := oldStart + (s.request old).l2meta.nbClusters
    if start + nbClusters < oldStart ∨ start > oldEnd then checkInFlight g s start rest nbClusters
    else
      let nbClusters := if start < oldStart then oldStart - start else 0
      if nbClusters = 0 then .error old else checkInFlight g s start rest nbClusters

/-- The requests that `QLIST_FOREACH` visits. -/
def inFlight : Except Fault (List Nat) :=
  let l := s.clusterAllocs.walk (s.bound + 1) s.clusterAllocs.first
  if l.length > s.bound then .error .endlessLoop else .ok l

/-- From the label `out` on. -/
def allocOut (pass : Pass) (nbClusters : Nat)
    (clusterOffset : BitVec 64) (answers : Answers) : Except Fault Writes :=
  match answers.put with
  | some e => s.removeAlloc r >>= fun s => finish s r (some e)
  | none =>
    let nbAvailable := min (nbClusters * g.clusterSectors) pass.nEnd
    let m := { (s.request r).l2meta with
      nbAvailable := nbAvailable, clusterOffset := clusterOffset }
    if clusterOffset &&& 511#64 ≠ 0#64 then .error (.assertFailed "(cluster_offset & 511) == 0")
    else
      let s := s.setRequest r { s.request r with
        l2meta := m
        curNrSectors := nbAvailable - pass.nStart }
      .ok (s.setPhase r .writing)

/-- The request enters `cluster_allocs` and allocates its clusters. -/
def allocNew (pass : Pass) (nbClusters : Nat) (answers : Answers) : Except Fault Writes :=
  let s := s.setMeta r { (s.request r).l2meta with
    offset := pass.offset
    nStart := pass.nStart
    nbClusters := nbClusters }
  let s := { s with clusterAllocs := s.clusterAllocs.insertHead r }
  match answers.alloc with
  | .error e => s.removeAlloc r >>= fun s => finish s r (some e)
  | .ok clusterOffset => allocOut g s r pass nbClusters (BitVec.ofNat 64 clusterOffset) answers

/-- The clusters asked for, as the source's integers have them. -/
def askedClusters (nEnd index : Nat) : Nat :=
  min (BitVec.ofInt 32 (sizeToClusters g (toInt32 (nEnd * 512)))).toNat (g.l2Size - index)

/-- From the label `again` on. -/
def allocPass (pass : Pass) (answers : Answers) : Except Fault Writes :=
  let asked := askedClusters g pass.nEnd (g.l2Index pass.offset)
  let entry := answers.table 0
  if entry &&& oflagCopied ≠ 0#64 then
    let nbClusters := countContiguousClusters asked g.clusterSize answers.table 0 0#64
    let s := s.setMeta r { (s.request r).l2meta with nbClusters := 0 }
    allocOut g s r pass nbClusters (entry &&& ~~~oflagCopied) answers
  else
    let asked := if entry &&& oflagCompressed ≠ 0#64 then 1 else asked
    availableClusters g.clusterSize asked answers.table (asked + 1) pass.i >>= fun i =>
      if ¬ i ≤ asked then .error (.assertFailed "i <= nb_clusters")
      else inFlight s >>= fun allocs =>
        match checkInFlight g s (pass.offset / g.clusterSize) allocs i with
        | .error old => .ok (s.setPhase r (.waiting old { pass with i := i }))
        | .ok nbClusters =>
          if nbClusters = 0 then .error (.aborted "") else allocNew g s r pass nbClusters answers

/-! ## A request -/

/-- The loop of `qcow2_co_writev`, up to where it gives up the lock. -/
def writeLoop (answers : Answers) : Except Fault Writes :=
  let q := s.request r
  if q.remainingSectors = 0 then finish s r none
  else
    let index := q.sectorNum % g.clusterSectors
    let nEnd := index + q.remainingSectors
    let nEnd := if g.encrypted ∧ nEnd > maxCryptClusters * g.clusterSectors then
        maxCryptClusters * g.clusterSectors else nEnd
    match answers.lookup with
    | some e => finish s r (some e)
    | none => allocPass g s r ⟨q.sectorNum * 512, index, nEnd, 0⟩ answers

/-- What `qcow2_alloc_cluster_link_l2` answers. -/
def linkAnswer (m : L2Meta) (answers : Answers) : Option Errno :=
  if m.nbClusters = 0 then none else answers.link

/-- After the data of the current iteration was written. -/
def afterWrite (answers : Answers) : Except Fault Writes :=
  match answers.write with
  | some e => finish s r (some e)
  | none =>
    match linkAnswer (s.request r).l2meta answers with
    | some e => finish s r (some e)
    | none =>
      runDependentRequests s r >>= fun s =>
        let q := s.request r
        let s := s.setRequest r { q with
          remainingSectors := q.remainingSectors - q.curNrSectors
          sectorNum := q.sectorNum + q.curNrSectors }
        writeLoop g s r answers

end

inductive WriteEvent
  | issue (sectorNum remainingSectors : Nat)
  | step (r : Nat) (answers : Answers)

def emptyMeta : L2Meta := ⟨0, 0#64, 0, 0, 0⟩

/-- A request that cannot run does not. -/
def writeStep : WriteEvent → Except Fault Writes
  | .issue sectorNum remaining =>
    let s' := (s.setRequest s.bound ⟨sectorNum, remaining, 0, emptyMeta⟩).setPhase s.bound .issued
    .ok { s' with bound := s.bound + 1 }
  | .step r answers =>
    match s.phase r with
    | .issued => writeLoop g s r answers
    | .woken pass => allocPass g s r pass answers
    | .writing => afterWrite g s r answers
    | .absent | .waiting _ _ | .done _ => .ok s

def Writes.start : Writes :=
  ⟨fun _ => ⟨0, 0, 0, emptyMeta⟩, fun _ => .absent, .empty, 0⟩

end QemuStm32.Qcow2
