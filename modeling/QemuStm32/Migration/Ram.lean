import QemuStm32.Lib.Cycles
import QemuStm32.Lib.Runs
import QemuStm32.Lib.Words
import QemuStm32.Savevm.Sections

/-!
# Live migration of RAM

`ram_save_live` and `ram_load` of `arch_init.c`. The source sends dirty pages, going around
the list of blocks from where it stopped; the block is named only when it is another one than
that of the page before. `k` is `TARGET_PAGE_BITS`.

The destination gives the memory of a page of zeros back to its host, which does so in pages of
its own: where these are larger, the pages next to it are lost.
-/

namespace QemuStm32.Ram

open Runs Readers Savevm Words

def flagCompress : Nat := 0x02
def flagMemSize : Nat := 0x04
def flagPage : Nat := 0x08
def flagEos : Nat := 0x10
def flagContinue : Nat := 0x20

structure RAMBlock where
  idstr : CString
  offset : Nat
  length : Nat
  deriving DecidableEq

/-- A block and an offset in it. -/
abbrev Place := RAMBlock × Nat

/-- The RAM address of a place. -/
def Place.addr (p : Place) : Nat := p.1.offset + p.2

/-- The source of the migration. `mem` is the memory of the blocks by RAM address, `dirty` the
`MIGRATION_DIRTY_FLAG` of `phys_dirty`. -/
structure Source where
  blocks : List RAMBlock
  mem : Memory
  dirty : Nat → Bool
  lastBlock : Option RAMBlock
  lastOffset : Nat

section
variable (k : Nat)

/-! ## Saving -/

def isDupPage (mem : Memory) (page : Nat) (ch : Byte) : Bool :=
  (List.range (2 ^ k / 4)).all fun i => loadWord mem (page + 4 * i) == ch ++ ch ++ ch ++ ch

def putBe64 (v : Nat) : List Byte := be32 (.ofNat 32 (v / 2 ^ 32)) ++ be32 (.ofNat 32 v)

def putIdstr (block : RAMBlock) : List Byte :=
  BitVec.ofNat 8 block.idstr.chars.length :: block.idstr.chars

def readPage (mem : Memory) (page : Nat) : List Byte :=
  (List.range (2 ^ k)).map fun i => mem (page + i)

/-- What `ram_save_block` sends for a page: `bytes_sent`, and the bytes. -/
def savePage (s : Source) (p : Place) : Nat × List Byte :=
  let cont := if some p.1 = s.lastBlock then flagContinue else 0
  let idstr := if cont = 0 then putIdstr p.1 else []
  if isDupPage k s.mem p.addr (s.mem p.addr) then
    (1, putBe64 (p.2 ||| cont ||| flagCompress) ++ idstr ++ [s.mem p.addr])
  else (2 ^ k, putBe64 (p.2 ||| cont ||| flagPage) ++ idstr ++ readPage k s.mem p.addr)

/-- `QLIST_NEXT`, or the first block behind the last one. -/
def nextBlock (blocks : List RAMBlock) (block : RAMBlock) : RAMBlock :=
  match (blocks.dropWhile fun b => b ≠ block).drop 1 with
  | b :: _ => b
  | [] => blocks.headD block

def advance (blocks : List RAMBlock) (p : Place) : Place :=
  if p.2 + 2 ^ k ≥ p.1.length then (nextBlock blocks p.1, 0) else (p.1, p.2 + 2 ^ k)

def isDirty (s : Source) (p : Place) : Bool := s.dirty (p.addr / 2 ^ k)

/-- The loop of `ram_save_block`: the place where it ends, and whether a dirty page is there.
A loop that goes back to `last_block` needs one. -/
def saveLoop (s : Source) : Nat → Place → Except Fault (Place × Bool)
  | 0, _ => .error .endlessLoop
  | rounds + 1, p =>
    if isDirty k s p then .ok (p, true)
    else
      match s.lastBlock with
      | none => .error (.outOfBounds "last_block" 0)
      | some last =>
        let next := advance k s.blocks p
        if next.addr = Place.addr (last, s.lastOffset) then .ok (next, false)
        else saveLoop s rounds next

/-- `bytes_sent`, the bytes and the source after `ram_save_block`. -/
def ramSaveBlock (rounds : Nat) (s : Source) : Except Fault (Nat × List Byte × Source) :=
  match s.lastBlock.or s.blocks.head? with
  | none => .error (.outOfBounds "blocks" 0)
  | some block =>
    saveLoop k s rounds (block, s.lastOffset) >>= fun (p, found) =>
      let s' := { s with lastBlock := some p.1, lastOffset := p.2 }
      if found then
        .ok ((savePage k s p).1, (savePage k s p).2,
          { s' with dirty := Function.update s.dirty (p.addr / 2 ^ k) false })
      else .ok (0, [], s')

/-- The loop of `ram_save_live` in which `qemu_file_rate_limit` returns 0 `limit` times. -/
def saveSome (rounds : Nat) : Nat → Source → Except Fault (List Byte × Source)
  | 0, s => .ok ([], s)
  | limit + 1, s =>
    ramSaveBlock k rounds s >>= fun (sent, bytes, s) =>
      if sent = 0 then .ok (bytes, s)
      else saveSome rounds limit s >>= fun (more, s) => .ok (bytes ++ more, s)

/-- The loop of stage 3. -/
def saveAll (rounds : Nat) : Nat → Source → Except Fault (List Byte × Source)
  | 0, _ => .error .endlessLoop
  | n + 1, s =>
    ramSaveBlock k rounds s >>= fun (sent, bytes, s) =>
      if sent = 0 then .ok (bytes, s)
      else saveAll rounds n s >>= fun (more, s) => .ok (bytes ++ more, s)

def ramBytesTotal (blocks : List RAMBlock) : Nat := (blocks.map (·.length)).sum

def sortRamList (blocks : List RAMBlock) : List RAMBlock :=
  blocks.mergeSort fun a b => decide (a.offset ≤ b.offset)

/-- The page numbers of a block. -/
def pageNumbers (block : RAMBlock) : List Nat :=
  (List.range ((block.length + 2 ^ k - 1) / 2 ^ k)).map fun i => (block.offset + i * 2 ^ k) / 2 ^ k

/-- The beginning of stage 1. -/
def startSaving (s : Source) : Source where
  blocks := sortRamList s.blocks
  mem := s.mem
  dirty n := s.dirty n || s.blocks.any fun block => (pageNumbers k block).contains n
  lastBlock := none
  lastOffset := 0

/-- What stage 1 sends before the pages. -/
def blockList (blocks : List RAMBlock) : List Byte :=
  putBe64 (ramBytesTotal blocks ||| flagMemSize) ++
    blocks.flatMap fun block => putIdstr block ++ putBe64 block.length

/-- `ram_save_live`: the bytes it sends. `limit` is the number of pages until the rate limit
stops it, `rounds` bounds the loops. -/
def ramSaveLive (rounds : Nat) (stage : Stage) (limit : Nat) (s : Source) :
    Except Fault (List Byte × Source) :=
  let (header, s) := if stage = .start then
      let s := startSaving k s
      (blockList s.blocks, s)
    else ([], s)
  saveSome k rounds limit s >>= fun (part, s) =>
    if stage = .end_ then
      saveAll k rounds rounds s >>= fun (all, s) =>
        .ok (header ++ (part ++ (all ++ putBe64 flagEos)), s)
    else .ok (header ++ (part ++ putBe64 flagEos), s)

/-! ## Loading -/

/-- The destination. `block` is the static variable of `host_from_stream_offset`. -/
structure Receiver where
  blocks : List RAMBlock
  mem : Memory
  block : Option RAMBlock

def getBe64 : Reader Fault Nat := do
  let high ← Reader.getBe32
  let low ← Reader.getBe32
  pure (high.toNat * 2 ^ 32 + low.toNat)

/-- The name that comes next in the stream. -/
def getIdstr : Reader Fault CString := do
  let len ← getByte
  let id ← getBuffer len.toNat
  pure (readIdstr id)

/-- `host_from_stream_offset`: the place whose memory the page is. -/
def hostFromStreamOffset (r : Receiver) (offset flags : Nat) :
    Reader Fault (Option Place × Receiver) :=
  if flags &&& flagContinue ≠ 0 then
    pure (r.block.map fun block => (block, offset), r)
  else do
    let id ← getIdstr
    let block := r.blocks.find? fun block => block.idstr = id
    pure (block.map fun block => (block, offset), { r with block := block })

def writeBytes (mem : Memory) (a : Nat) (bytes : List Byte) : Memory := fun b =>
  if a ≤ b then (bytes[b - a]?).getD (mem b) else mem b

/-- The loop over the blocks the source has; the result is an error, if there is one. -/
def syncBlocks (r : Receiver) : Nat → Nat → Reader Fault (Option Int)
  | _, 0 => pure none
  | 0, _ + 1 => .fault .endlessLoop
  | rounds + 1, total => do
    let id ← getIdstr
    let length ← getBe64
    match r.blocks.find? fun block => block.idstr = id with
    | none => pure (some einval)
    | some block =>
      if block.length ≠ length then pure (some einval)
      else syncBlocks r rounds ((total + 2 ^ 64 - length) % 2 ^ 64)

/-- `qemu_madvise` with `QEMU_MADV_DONTNEED` on a host with pages of `2 ^ j` bytes: from the
beginning of such a page on, the memory is zero to the end of the last one that is touched.
Elsewhere the call fails. The memory of a block begins with a host page, as `qemu_vmalloc`
allocates it. -/
def qemuMadvise (j : Nat) (mem : Memory) (p : Place) : Memory := fun a =>
  if 2 ^ j ∣ p.2 ∧ p.addr ≤ a ∧ a < p.addr + max (2 ^ k) (2 ^ j) ∧
    a < p.1.offset + p.1.length then 0
  else mem a

-- The page bits of the host, if it is given back memory: not with a KVM that lacks
-- `kvm_has_sync_mmu`, and not on Windows.
variable (host : Option Nat)

/-- The page that `ram_load` reads, or the byte it fills one with. There is no result if the
block of the byte is not known. -/
def loadPage (r : Receiver) (addr flags : Nat) : Reader Fault (Option Receiver) :=
  if flags &&& flagCompress ≠ 0 then do
    let (page, r) ← hostFromStreamOffset r addr flags
    match page with
    | none => pure none
    | some p =>
      let ch ← getByte
      let mem := writeBytes r.mem p.addr (List.replicate (2 ^ k) ch)
      pure (some { r with
        mem := if ch = 0 then host.elim mem fun j => qemuMadvise k j mem p else mem })
  else if flags &&& flagPage ≠ 0 then do
    let (page, r) ← hostFromStreamOffset r addr flags
    match page with
    | none => .fault (.outOfBounds "host" 0)
    | some p =>
      let bytes ← getBuffer (2 ^ k)
      pure (some { r with mem := writeBytes r.mem p.addr bytes })
  else pure (some r)

/-- `ram_load`, for version 4. -/
def ramLoad : Nat → Receiver → Reader Fault (Int × Receiver)
  | 0, _ => .fault .endlessLoop
  | rounds + 1, r => do
    let value ← getBe64
    let flags := value % 2 ^ k
    let addr := value / 2 ^ k * 2 ^ k
    let error ← if flags &&& flagMemSize ≠ 0 then syncBlocks r rounds addr else pure none
    match error with
    | some error => pure (error, r)
    | none =>
      let received ← loadPage k host r addr flags
      match received with
      | none => pure (einval, r)
      | some r =>
        let failed ← .failed .done
        if failed then pure (eio, r)
        else if flags &&& flagEos ≠ 0 then pure (0, r)
        else ramLoad rounds r

/-- One call of `ram_load` for each call of `ram_save_live`. -/
def ramLoadAll (rounds : Nat) : Nat → Receiver → Reader Fault (Int × Receiver)
  | 0, r => pure (0, r)
  | n + 1, r => do
    let (ret, r) ← ramLoad k host rounds r
    if ret ≠ 0 then pure (ret, r) else ramLoadAll rounds n r

/-! ## Runs -/

/-- The source, and the bytes of each call of `ram_save_live`. -/
structure Migrating where
  source : Source
  sections : List (List Byte)

inductive RamEvent
  /-- The guest writes a byte. -/
  | write (addr : Nat) (byte : Byte)
  | save (stage : Stage) (limit : Nat)

def ramStep (rounds : Nat) (m : Migrating) : RamEvent → Except Fault Migrating
  | .write addr byte => .ok { m with source := { m.source with
      mem := Function.update m.source.mem addr byte
      dirty := Function.update m.source.dirty (addr / 2 ^ k) true } }
  | .save stage limit =>
    ramSaveLive k rounds stage limit m.source >>= fun (bytes, s) =>
      .ok ⟨s, m.sections ++ [bytes]⟩

end

end QemuStm32.Ram
