import QemuStm32.Fault
import QemuStm32.Qed.Image

/-!
# Requests of a QED image

`block/qed.c`, `block/qed-cluster.c`, `block/qed-table.c` and `block/qed-l2-cache.c`. A
request is a chain of callbacks. A function either hands a file operation to the
block layer together with the callback for its end, or goes on to another callback at
once. All those calls are in tail position, so the machine holds at most one call to be
made next, and the file operations in flight. The sectors with guest data are not
part of the model, the tables are.
-/

namespace QemuStm32.Qed

/-- The results of a lookup; errors are negative. -/
def qedClusterFound : Int := 0
def qedClusterZero : Int := 1
def qedClusterL2 : Int := 2
def qedClusterL1 : Int := 3
def einval : Int := 22

/-- The completion functions with the data they are called with. A request is known by its
number. The callbacks of a table write, a header write or a copy hold the callback they end
in; a lookup that has to read its L2 table holds what it looks for. -/
inductive Callback
  | nextIo (acb : Nat)
  | writePrefill (acb : Nat)
  | writePostfill (acb : Nat)
  | writeMain (acb : Nat)
  | writeFlushBeforeL2Update (acb : Nat)
  | writeL2Update (acb : Nat)
  | writeL1Update (acb : Nat)
  | commitL2Update (acb : Nat)
  | findCluster (acb pos len : Nat)
  | readL2Table (acb offset pos len : Nat)
  | copyFromBackingFileWrite (next : Callback)
  | copyFromBackingFile (next : Callback)
  | writeHeaderRead (next : Callback)
  | writeHeader (next : Callback)
  | writeTable (flush : Bool) (next : Callback)
  | clearNeedCheck
  | flushAfterClearNeedCheck
  | finishClearNeedCheck
  deriving DecidableEq

/-- Where a table is in the file. -/
inductive Place
  | l1
  | l2 (offset : Nat)
  deriving DecidableEq

/-- The operations whose data the model does not follow. -/
inductive Kind
  | headerRead
  | headerWrite
  | backingRead
  | cowWrite
  | dataWrite
  | dataRead
  | flush
  deriving DecidableEq

/-- A file operation in flight. A read of a table has found its data once `data` is there, a
write has reached the file once `done` is set. -/
inductive Op
  | readTable (entry offset : Nat) (data : Option Table) (cb : Callback)
  | writeTable (place : Place) (start stop : Nat) (words : Table) (done : Bool) (cb : Callback)
  | file (kind : Kind) (cb : Callback)

def Op.cb : Op → Callback
  | .readTable _ _ _ cb | .writeTable _ _ _ _ _ cb | .file _ cb => cb

structure CachedL2Table where
  offset : Nat
  table : Table

/-- `QEDAIOCB`; `curSize` is the size of `cur_qiov`. -/
structure Acb where
  isWrite : Bool
  endPos : Nat
  curPos : Nat
  curSize : Nat
  curCluster : Nat
  curNclusters : Nat
  findClusterRet : Int
  l2Table : Option Nat

/-- `BDRVQEDState`, the tables in memory and in the file, the requests, and what is under way.
Cache entries are known by their number, which is never used again. `completed` (the calls of
`qed_aio_complete`), `frozen` (the requests that wait in the queue without being active)
and `failed` (the requests an operation of which failed) are history. -/
structure State where
  fileSize : Nat
  needCheck : Bool
  l1Table : Table
  entries : Nat → CachedL2Table
  entriesMade : Nat
  l2Cache : List Nat
  allocatingWriteReqs : List Nat
  allocatingWriteReqsPlugged : Bool
  needCheckTimer : Bool
  file : Place → Table
  acbs : Nat → Acb
  started : Nat
  ops : List Op
  call : Option (Callback × Int)
  completed : List (Nat × Int)
  frozen : List Nat
  failed : List Nat

/-- The request a callback belongs to; the callbacks of the timer belong to none. -/
def Callback.acb : Callback → Option Nat
  | .nextIo acb | .writePrefill acb | .writePostfill acb | .writeMain acb
  | .writeFlushBeforeL2Update acb | .writeL2Update acb | .writeL1Update acb
  | .commitL2Update acb | .findCluster acb _ _ | .readL2Table acb _ _ _ => some acb
  | .copyFromBackingFileWrite next | .copyFromBackingFile next | .writeHeaderRead next
  | .writeHeader next | .writeTable _ next => next.acb
  | .clearNeedCheck | .flushAfterClearNeedCheck | .finishClearNeedCheck => none

namespace State

/-- A call in tail position. -/
def goTo (s : State) (cb : Callback) (ret : Int) : State := { s with call := some (cb, ret) }

def submit (s : State) (op : Op) : State := { s with ops := s.ops ++ [op] }

def setAcb (s : State) (acb : Nat) (value : Acb) : State :=
  { s with acbs := Function.update s.acbs acb value }

def fail (s : State) (cb : Callback) : State := { s with failed := s.failed ++ cb.acb.toList }

end State

/-! ## The L2 cache -/

def maxL2CacheSize : Nat := 50

variable (im : Image) (s : State)

/-- A new entry; the caller sets its table and offset. -/
def qedAllocL2CacheEntry (entry : CachedL2Table) : State × Nat :=
  ({ s with
      entries := Function.update s.entries s.entriesMade entry
      entriesMade := s.entriesMade + 1 }, s.entriesMade)

def qedFindL2CacheEntry (offset : Nat) : Option Nat :=
  s.l2Cache.find? fun e => (s.entries e).offset = offset

def qedCommitL2CacheEntry (entry : Nat) : State :=
  if (qedFindL2CacheEntry s (s.entries entry).offset).isSome then s
  else
    -- the oldest entry goes, whether a request uses it or not
    let kept := if s.l2Cache.length ≥ maxL2CacheSize then s.l2Cache.tail else s.l2Cache
    { s with l2Cache := kept ++ [entry] }

/-! ## Table and header I/O -/

/-- `qed_write_table`: whole sectors go out, 64 entries each. -/
def qedWriteTable (place : Place) (table : Table) (index n : Nat) (flush : Bool)
    (cb : Callback) : State :=
  let start := index / 64 * 64
  let stop := (index + n + 63) / 64 * 64
  s.submit (.writeTable place start stop table false (.writeTable flush cb))

def qedWriteL1Table (index n : Nat) (cb : Callback) : State :=
  qedWriteTable s .l1 s.l1Table index n false cb

def qedWriteL2Table (entry index n : Nat) (flush : Bool) (cb : Callback) : State :=
  qedWriteTable s (.l2 (s.entries entry).offset) (s.entries entry).table index n flush cb

def qedWriteTableCb (flush : Bool) (next : Callback) (ret : Int) : State :=
  if ret ≠ 0 then s.goTo next ret
  else if flush then s.submit (.file .flush (.writeTable false next))
  else s.goTo next ret

def qedWriteHeader (cb : Callback) : State :=
  s.submit (.file .headerRead (.writeHeaderRead cb))

def qedWriteHeaderReadCb (next : Callback) (ret : Int) : State :=
  if ret ≠ 0 then s.goTo next ret else s.submit (.file .headerWrite (.writeHeader next))

/-! ## The allocating write queue -/

def qedAllocClusters (n : Nat) : State × Nat :=
  -- the product is computed in 32 bits
  ({ s with fileSize := s.fileSize + n * im.clusterSize % 2 ^ 32 }, s.fileSize)

def qedNewL2Table : State × Nat :=
  let (s, offset) := qedAllocClusters im s im.tableSize
  qedAllocL2CacheEntry s ⟨offset, fun _ => 0⟩

def qedPlugAllocatingWriteReqs : Except Fault State :=
  if s.allocatingWriteReqsPlugged then .error (.assertFailed "!s->allocating_write_reqs_plugged")
  else .ok { s with allocatingWriteReqsPlugged := true }

/-- The first request of the queue goes on. -/
def restartFirst : State :=
  match s.allocatingWriteReqs with
  | [] => s
  | acb :: _ => { s with frozen := s.frozen.tail }.goTo (.nextIo acb) 0

def qedUnplugAllocatingWriteReqs : Except Fault State :=
  if s.allocatingWriteReqsPlugged then
    .ok (restartFirst { s with allocatingWriteReqsPlugged := false })
  else .error (.assertFailed "s->allocating_write_reqs_plugged")

def qedAioComplete (acb : Nat) (ret : Int) : State :=
  let s := { s with completed := s.completed ++ [(acb, ret)] }
  if s.allocatingWriteReqs.head? = some acb then
    let s := { s with allocatingWriteReqs := s.allocatingWriteReqs.tail }
    match s.allocatingWriteReqs with
    | _ :: _ => restartFirst s
    | [] => if s.needCheck then { s with needCheckTimer := true } else s
  else s

theorem restartFirst_eq :
    ∃ frozen call, restartFirst s = { s with frozen := frozen, call := call } := by
  unfold restartFirst
  split
  · exact ⟨s.frozen, s.call, rfl⟩
  · exact ⟨_, _, rfl⟩

/-- The end of a request touches the queue and the call only. -/
theorem qedAioComplete_eq (acb : Nat) (ret : Int) :
    ∃ queue timer frozen call, qedAioComplete s acb ret = { s with
        allocatingWriteReqs := queue
        needCheckTimer := timer
        frozen := frozen
        call := call
        completed := s.completed ++ [(acb, ret)] } := by
  unfold qedAioComplete
  dsimp only
  split
  · split
    · obtain ⟨frozen, call, eq⟩ := restartFirst_eq
        { s with
          allocatingWriteReqs := s.allocatingWriteReqs.tail
          completed := s.completed ++ [(acb, ret)] }
      exact ⟨_, _, _, _, eq⟩
    · split <;> exact ⟨_, _, _, _, rfl⟩
  · exact ⟨_, _, _, _, rfl⟩

/-! ## The need-check timer -/

def qedNeedCheckTimerCb : Except Fault State :=
  if s.allocatingWriteReqs = [] then do
    let s ← qedPlugAllocatingWriteReqs s
    .ok (s.submit (.file .flush .clearNeedCheck))
  else .error (.assertFailed "!QSIMPLEQ_FIRST(&s->allocating_write_reqs)")

def qedClearNeedCheck (ret : Int) : Except Fault State :=
  if ret ≠ 0 then qedUnplugAllocatingWriteReqs s
  else .ok (qedWriteHeader { s with needCheck := false } .flushAfterClearNeedCheck)

def qedFlushAfterClearNeedCheck : Except Fault State :=
  qedUnplugAllocatingWriteReqs (s.submit (.file .flush .finishClearNeedCheck))

/-! ## Copying from the backing file -/

section
variable (length : Int)

/-- `length` is what `bdrv_getlength` returns for the backing file. -/
def qedReadBackingFile (pos : Nat) (cb : Callback) : State :=
  if im.backing ∧ length < 0 then (s.fail cb).goTo cb length
  else
    let backingLength : Int := if im.backing then length else 0
    if (pos : Int) ≥ backingLength then s.goTo cb 0 else s.submit (.file .backingRead cb)

def qedCopyFromBackingFileWrite (next : Callback) (ret : Int) : State :=
  if ret ≠ 0 then s.goTo next ret
  else s.submit (.file .cowWrite (.copyFromBackingFile next))

def qedCopyFromBackingFile (pos len : Nat) (cb : Callback) : State :=
  if len = 0 then s.goTo cb 0
  else qedReadBackingFile im s length pos (.copyFromBackingFileWrite cb)

/-! ## Allocating writes -/

/-- Entries `index` to `index + n - 1` get consecutive clusters. -/
def qedUpdateL2Table (table : Table) (index n cluster : Nat) : Table := fun i =>
  if index ≤ i ∧ i < index + n then
    if Names cluster then cluster + (i - index) * im.clusterSize else cluster
  else table i

section
variable (acb : Nat) (ret : Int)

def qedCommitL2Update : Except Fault State :=
  match (s.acbs acb).l2Table with
  | none => .error (.assertFailed "l2_table")
  | some entry =>
    let offset := (s.entries entry).offset
    let s := qedCommitL2CacheEntry s entry
    match qedFindL2CacheEntry s offset with
    | none => .error (.assertFailed "acb->request.l2_table != NULL")
    | some found =>
      .ok ((s.setAcb acb { s.acbs acb with l2Table := some found }).goTo (.nextIo acb) ret)

def qedAioWriteL1Update : Except Fault State :=
  if ret ≠ 0 then .ok (qedAioComplete s acb ret)
  else
    match (s.acbs acb).l2Table with
    | none => .error (.assertFailed "l2_table")
    | some entry =>
      let index := im.qedL1Index (s.acbs acb).curPos
      if index < im.tableNelems then
        let s :=
          { s with l1Table := Function.update s.l1Table index (s.entries entry).offset }
        .ok (qedWriteL1Table s index 1 (.commitL2Update acb))
      else .error (.outOfBounds "l1_table->offsets" index)

/-- The entries of the request change; the table must have them. -/
def linkClusters (acb entry : Nat) : Except Fault State :=
  let a := s.acbs acb
  let index := im.qedL2Index a.curPos
  if index + a.curNclusters ≤ im.tableNelems then
    let e := s.entries entry
    let table := qedUpdateL2Table im e.table index a.curNclusters a.curCluster
    .ok { s with entries := Function.update s.entries entry { e with table := table } }
  else .error (.outOfBounds "table->offsets" (index + a.curNclusters - 1))

def qedAioWriteL2Update : Except Fault State :=
  if ret ≠ 0 then .ok (qedAioComplete s acb ret)
  else if (s.acbs acb).findClusterRet = qedClusterL1 then do
    let (s, entry) := qedNewL2Table im s
    let s := s.setAcb acb { s.acbs acb with l2Table := some entry }
    let s ← linkClusters im s acb entry
    .ok (qedWriteL2Table s entry 0 im.tableNelems true (.writeL1Update acb))
  else
    match (s.acbs acb).l2Table with
    | none => .error (.assertFailed "l2_table")
    | some entry => do
      let s ← linkClusters im s acb entry
      .ok (qedWriteL2Table s entry (im.qedL2Index (s.acbs acb).curPos)
        (s.acbs acb).curNclusters false (.nextIo acb))

/-- The result of the data write is not looked at. -/
def qedAioWriteFlushBeforeL2Update : State :=
  s.submit (.file .flush (.writeL2Update acb))

def qedAioWriteMain : State :=
  if ret ≠ 0 then qedAioComplete s acb ret
  else
    let nextFn : Callback :=
      if (s.acbs acb).findClusterRet = qedClusterFound then .nextIo acb
      else if im.backing then .writeFlushBeforeL2Update acb else .writeL2Update acb
    s.submit (.file .dataWrite nextFn)

def qedAioWritePostfill : State :=
  if ret ≠ 0 then qedAioComplete s acb ret
  else
    let a := s.acbs acb
    let start := a.curPos + a.curSize
    let len := im.qedStartOfCluster (start + im.clusterSize - 1) - start
    qedCopyFromBackingFile im s length start len (.writeMain acb)

/-- The result of the header write is not looked at. -/
def qedAioWritePrefill : State :=
  let a := s.acbs acb
  qedCopyFromBackingFile im s length (im.qedStartOfCluster a.curPos)
    (im.qedOffsetIntoCluster a.curPos) (.writePostfill acb)

def qedShouldSetNeedCheck : Bool :=
  if im.backing then false else !s.needCheck

/-- The request goes to the tail of the queue, unless it is the first one. -/
def enqueue : State :=
  let s := if s.allocatingWriteReqs = [] then { s with needCheckTimer := false } else s
  if s.allocatingWriteReqs.head? = some acb then s
  else { s with allocatingWriteReqs := s.allocatingWriteReqs ++ [acb] }

/-- The clusters of an allocating write that may go on. -/
def startAllocation (acb len : Nat) : State :=
  let a := s.acbs acb
  let n := im.qedBytesToClusters (im.qedOffsetIntoCluster a.curPos + len) % 2 ^ 32
  let (s, cluster) := qedAllocClusters im s n
  let s := s.setAcb acb { a with curNclusters := n, curCluster := cluster, curSize := len }
  if qedShouldSetNeedCheck im s then
    qedWriteHeader { s with needCheck := true } (.writePrefill acb)
  else s.goTo (.writePrefill acb) 0

def qedAioWriteAlloc (acb len : Nat) : State :=
  let s := enqueue s acb
  if s.allocatingWriteReqs.head? ≠ some acb ∨ s.allocatingWriteReqsPlugged = true then
    { s with frozen := s.frozen ++ [acb] }
  else startAllocation im s acb len

def qedAioWriteInplace (acb offset len : Nat) : State :=
  qedAioWriteMain im
    (s.setAcb acb { s.acbs acb with curCluster := offset, curSize := len }) acb 0

def qedAioWriteData (offset len : Nat) : State :=
  let s := s.setAcb acb { s.acbs acb with findClusterRet := ret }
  if ret = qedClusterFound then qedAioWriteInplace im s acb offset len
  else if ret = qedClusterL2 ∨ ret = qedClusterL1 ∨ ret = qedClusterZero then
    qedAioWriteAlloc im s acb len
  else qedAioComplete s acb ret

def qedAioReadData (len : Nat) : State :=
  if ret < 0 then qedAioComplete s acb ret
  else
    let s := s.setAcb acb { s.acbs acb with curSize := len }
    if ret = qedClusterZero then s.goTo (.nextIo acb) 0
    else if ret ≠ qedClusterFound then
      qedReadBackingFile im s length (s.acbs acb).curPos (.nextIo acb)
    else s.submit (.file .dataRead (.nextIo acb))

/-- The function a lookup ends in. -/
def ioFn (offset len : Nat) : State :=
  if (s.acbs acb).isWrite then qedAioWriteData im s acb ret offset len
  else qedAioReadData im s length acb ret len

/-! ## Lookups -/

def qedFindClusterCb (acb pos len : Nat) (ret : Int) : Except Fault State :=
  if ret ≠ 0 then .ok (ioFn im s length acb ret 0 0)
  else
    match (s.acbs acb).l2Table with
    | none => .error (.assertFailed "request->l2_table")
    | some entry =>
      let n := im.qedBytesToClusters (im.qedOffsetIntoCluster pos + len) % 2 ^ 32
      let (n, offset) :=
        qedCountContiguousClusters im (s.entries entry).table (im.qedL2Index pos) n
      let result :=
        if qedOffsetIsUnallocCluster offset then qedClusterL2
        else if qedOffsetIsZeroCluster offset then qedClusterZero
        else if im.qedCheckClusterOffset s.fileSize offset then qedClusterFound
        else -einval
      -- a 32-bit product, then a 64-bit difference
      let bytes := (n * im.clusterSize % 2 ^ 32 + 2 ^ 64 - im.qedOffsetIntoCluster pos) % 2 ^ 64
      .ok (ioFn im s length acb result offset (min len bytes))

def qedReadL2TableCb (acb offset pos len : Nat) (ret : Int) : Except Fault State :=
  if ret ≠ 0 then
    .ok ((s.setAcb acb { s.acbs acb with l2Table := none }).goTo (.findCluster acb pos len) ret)
  else
    match (s.acbs acb).l2Table with
    | none => .error (.assertFailed "l2_table")
    | some entry =>
      let s :=
        { s with
          entries := Function.update s.entries entry { s.entries entry with offset := offset } }
      let s := qedCommitL2CacheEntry s entry
      match qedFindL2CacheEntry s offset with
      | none => .error (.assertFailed "request->l2_table != NULL")
      | some found =>
        .ok ((s.setAcb acb { s.acbs acb with l2Table := some found }).goTo
          (.findCluster acb pos len) ret)

def qedReadL2Table (acb offset pos len : Nat) : State :=
  match qedFindL2CacheEntry s offset with
  | some entry =>
    (s.setAcb acb { s.acbs acb with l2Table := some entry }).goTo (.findCluster acb pos len) 0
  | none =>
    let (s, entry) := qedAllocL2CacheEntry s ⟨0, fun _ => 0⟩
    let s := s.setAcb acb { s.acbs acb with l2Table := some entry }
    s.submit (.readTable entry offset none (.readL2Table acb offset pos len))

def qedFindCluster (acb pos len : Nat) : Except Fault State :=
  let len := min len ((im.qedL1Index pos + 1) * im.tableSpan - pos)
  if im.qedL1Index pos < im.tableNelems then
    let l2Offset := s.l1Table (im.qedL1Index pos)
    if qedOffsetIsUnallocCluster l2Offset then .ok (ioFn im s length acb qedClusterL1 0 len)
    else if im.qedCheckTableOffset s.fileSize l2Offset = false then
      .ok (ioFn im s length acb (-einval) 0 0)
    else .ok (qedReadL2Table s acb l2Offset pos len)
  else .error (.outOfBounds "l1_table->offsets" (im.qedL1Index pos))

def qedAioNextIo : Except Fault State :=
  if ret ≠ 0 then .ok (qedAioComplete s acb ret)
  else
    let a := s.acbs acb
    let s := s.setAcb acb { a with curPos := a.curPos + a.curSize, curSize := 0 }
    let a := s.acbs acb
    if a.curPos ≥ a.endPos then .ok (qedAioComplete s acb 0)
    else qedFindCluster im s length acb a.curPos (a.endPos - a.curPos)

end

/-- One callback. -/
def invoke (ret : Int) : Callback → Except Fault State
  | .nextIo acb => qedAioNextIo im s length acb ret
  | .writePrefill acb => .ok (qedAioWritePrefill im s length acb)
  | .writePostfill acb => .ok (qedAioWritePostfill im s length acb ret)
  | .writeMain acb => .ok (qedAioWriteMain im s acb ret)
  | .writeFlushBeforeL2Update acb => .ok (qedAioWriteFlushBeforeL2Update s acb)
  | .writeL2Update acb => qedAioWriteL2Update im s acb ret
  | .writeL1Update acb => qedAioWriteL1Update im s acb ret
  | .commitL2Update acb => qedCommitL2Update s acb ret
  | .findCluster acb pos len => qedFindClusterCb im s length acb pos len ret
  | .readL2Table acb offset pos len => qedReadL2TableCb s acb offset pos len ret
  | .copyFromBackingFileWrite next => .ok (qedCopyFromBackingFileWrite s next ret)
  | .copyFromBackingFile next => .ok (s.goTo next ret)
  | .writeHeaderRead next => .ok (qedWriteHeaderReadCb s next ret)
  | .writeHeader next => .ok (s.goTo next ret)
  | .writeTable flush next => .ok (qedWriteTableCb s flush next ret)
  | .clearNeedCheck => qedClearNeedCheck s ret
  | .flushAfterClearNeedCheck => qedFlushAfterClearNeedCheck s
  | .finishClearNeedCheck => .ok s

end

/-! ## Events -/

/-- A request comes in; the pending call is made, with the length of the backing file should it be
asked for; operation `i` takes effect; operation `i` ends, with an error unless `errno` is zero;
the timer fires. -/
inductive Event
  | start (isWrite : Bool) (sectorNum nbSectors : Nat)
  | tick (length : Int)
  | perform (i : Nat)
  | finish (i errno : Nat)
  | timer

def bdrvSectorSize : Nat := 512

def qedAioSetup (isWrite : Bool) (sectorNum nbSectors : Nat) : State :=
  let pos := sectorNum * bdrvSectorSize
  let acb : Acb :=
    { isWrite := isWrite, endPos := pos + nbSectors * bdrvSectorSize, curPos := pos
      curSize := 0, curCluster := 0, curNclusters := 0, findClusterRet := 0, l2Table := none }
  ({ s with started := s.started + 1 }.setAcb s.started acb).goTo (.nextIo s.started) 0

/-- The effect of an operation on the file, or of the file on it. -/
def Op.perform (op : Op) (file : Place → Table) : Op × (Place → Table) :=
  match op with
  | .readTable entry offset none cb =>
    (.readTable entry offset (some (file (.l2 offset))) cb, file)
  | .writeTable place start stop words false cb =>
    (.writeTable place start stop words true cb,
      Function.update file place fun j =>
        if start ≤ j ∧ j < stop then words j else file place j)
  | op => (op, file)

/-- An operation can end well only after it took effect. -/
def Op.ready : Op → Bool
  | .readTable _ _ data _ => data.isSome
  | .writeTable _ _ _ _ done _ => done
  | .file _ _ => true

/-- The data of a table read is in the entry when its callback runs. -/
def Op.deliver (op : Op) (s : State) : State :=
  match op with
  | .readTable entry _ (some data) _ =>
    { s with
      entries := Function.update s.entries entry { s.entries entry with table := data } }
  | _ => s

def finishOp (i : Nat) (op : Op) (errno : Nat) : State :=
  let s := { s with ops := s.ops.eraseIdx i }
  let s := if errno = 0 then op.deliver s else s.fail op.cb
  s.goTo op.cb (-errno)

/-- One event. Callbacks run one at a time, and an event that cannot happen now changes nothing.
The block layer passes on requests inside the image only. -/
def step : Event → Except Fault State
  | .start isWrite sectorNum nbSectors =>
    if s.call = none ∧ (sectorNum + nbSectors) * bdrvSectorSize ≤ im.imageSize then
      .ok (qedAioSetup s isWrite sectorNum nbSectors) else .ok s
  | .tick length => match s.call with
    | some (cb, ret) => invoke im { s with call := none } length ret cb
    | none => .ok s
  | .perform i => match s.ops[i]? with
    | some op => let (op, file) := op.perform s.file
      .ok { s with ops := s.ops.set i op, file := file }
    | none => .ok s
  | .finish i errno => match s.ops[i]? with
    | some op =>
      if s.call = none ∧ (errno = 0 → op.ready = true) then .ok (finishOp s i op errno) else .ok s
    | none => .ok s
  | .timer => if s.call = none ∧ s.needCheckTimer = true then
      qedNeedCheckTimerCb { s with needCheckTimer := false } else .ok s

/-- An image that has just been opened. -/
def opened (fileSize : Nat) (needCheck : Bool) (file : Place → Table) : State where
  fileSize := fileSize
  needCheck := needCheck
  l1Table := file .l1
  entries := fun _ => ⟨0, fun _ => 0⟩
  entriesMade := 0
  l2Cache := []
  allocatingWriteReqs := []
  allocatingWriteReqsPlugged := false
  needCheckTimer := false
  file := file
  acbs := fun _ => ⟨false, 0, 0, 0, 0, 0, 0, none⟩
  started := 0
  ops := []
  call := none
  completed := []
  frozen := []
  failed := []

end QemuStm32.Qed
