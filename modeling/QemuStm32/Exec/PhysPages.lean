import QemuStm32.Exec.PhysMemory

/-!
# Registering physical memory

`cpu_register_physical_memory_log` of `exec.c`, and where an access to a byte goes. A page that
is registered in parts has a subpage, which is entered in the table of I/O functions.
-/

namespace QemuStm32.Exec

open Runs

def ioMemSubpage : Nat := 2

/-- `subpage_t`: the entry of each byte of a page. -/
structure Subpage where
  subIoIndex : Nat → Nat
  regionOffset : Nat → Nat

/-- The page table and the table of I/O functions. -/
structure PhysState where
  pages : PhysMap
  ioMemUsed : Nat → Bool
  /-- `io_mem_opaque` where the functions are `subpage_read` and `subpage_write`. -/
  subpages : Nat → Option Subpage

/-- The arguments of a call. -/
structure Registration where
  startAddr : Nat
  size : Nat
  physOffset : Nat
  regionOffset : Nat

section
variable (t : Target)

/-- `IO_MEM_NB_ENTRIES`. -/
def Target.entries : Nat := t.pageSize / 8

/-- The test for pages whose `phys_offset` is an address in RAM. -/
def isMemory (physOffset : Nat) : Bool :=
  decide (physOffset % t.pageSize ≤ ioMemRom) || physOffset.testBit 0

/-! ## Subpages -/

/-- The bytes from `start` to `end_` go to `memory`. -/
def subpageRegister (mmio : Subpage) (start end_ memory regionOffset : Nat) : Subpage :=
  if start ≥ t.pageSize ∨ end_ ≥ t.pageSize then mmio
  else
    let memory := if memory % t.pageSize = ioMemRam then ioMemUnassigned else memory
    let index := memory / 8 % t.entries
    { subIoIndex := fun idx => if start ≤ idx ∧ idx ≤ end_ then index else mmio.subIoIndex idx
      regionOffset := fun idx =>
        if start ≤ idx ∧ idx ≤ end_ then regionOffset else mmio.regionOffset idx }

def getFreeIoMemIdx (s : PhysState) : Option Nat :=
  (List.range t.entries).find? fun i => !s.ioMemUsed i

/-- A page gets a subpage: `subpage_init` with what the page was before, and the
`subpage_register` after it. Without a free index `phys_offset` is -1. -/
def subpageInit (page origMemory origOffset : Nat) (part : Subpage → Subpage) (s : PhysState) :
    PhysState :=
  let mmio := subpageRegister t ⟨fun _ => 0, fun _ => 0⟩ 0 (t.pageSize - 1) origMemory origOffset
  match getFreeIoMemIdx t s with
  | none => { s with pages := Function.update s.pages page (some ⟨ramAddrMax, 0⟩) }
  | some i =>
    { pages := Function.update s.pages page (some ⟨i * 8 ||| ioMemSubpage, 0⟩)
      ioMemUsed := Function.update s.ioMemUsed i true
      subpages := Function.update s.subpages i (some (part mmio)) }

section
variable (c : Registration)

/-- `CHECK_SUBPAGE`: the part of the page, and whether a subpage is needed for it. -/
def checkSubpage (addr : Nat) : Nat × Nat × Bool :=
  let startAddr2 := if addr > c.startAddr then 0 else c.startAddr % t.pageSize
  let endAddr2 := if c.startAddr + c.size - addr ≥ t.pageSize then t.pageSize - 1
    else (c.startAddr + c.size - 1) % t.pageSize
  (startAddr2, endAddr2, decide (startAddr2 > 0 ∨ endAddr2 < t.pageSize - 1))

/-! ## Registration -/

section
variable (addr physOffset regionOffset : Nat)

/-- The branch for a page that is assigned. -/
def replacePage (p : PhysPageDesc) (s : PhysState) : Except Fault PhysState :=
  let page := addr / t.pageSize
  let (startAddr2, endAddr2, needSubpage) := checkSubpage t c addr
  let part := fun mmio => subpageRegister t mmio startAddr2 endAddr2 physOffset regionOffset
  if needSubpage then
    if p.physOffset.testBit 1 then
      let index := p.physOffset % t.pageSize / 8
      match s.subpages index with
      | none => .error (.outOfBounds "io_mem_opaque" index)
      | some mmio => .ok { s with
          subpages := Function.update s.subpages index (some (part mmio))
          pages := Function.update s.pages page (some { p with regionOffset := 0 }) }
    else .ok (subpageInit t page p.physOffset p.regionOffset part s)
  else .ok { s with
    pages := Function.update s.pages page (some { p with physOffset := physOffset }) }

/-- The branch for a page that is not. -/
def assignPage (s : PhysState) : PhysState :=
  let page := addr / t.pageSize
  let (startAddr2, endAddr2, needSubpage) := checkSubpage t c addr
  let part := fun mmio => subpageRegister t mmio startAddr2 endAddr2 physOffset regionOffset
  if !isMemory t physOffset && needSubpage then
    subpageInit t page ioMemUnassigned (page * t.pageSize) part s
  else { s with pages := Function.update s.pages page (some ⟨physOffset, regionOffset⟩) }

/-- One round of the loop, without the steps from page to page. -/
def registerPage (s : PhysState) : Except Fault PhysState :=
  match s.pages (addr / t.pageSize) with
  | none => .ok (assignPage t c addr physOffset regionOffset s)
  | some p =>
    if p.physOffset ≠ ioMemUnassigned then replacePage t c addr physOffset regionOffset p s
    else .ok (assignPage t c addr physOffset regionOffset s)

end

/-- The next `phys_offset`: it stays that of the page where there are parts, as only I/O
functions are registered in parts. -/
def nextOffset (addr physOffset : Nat) (s : PhysState) : Nat :=
  let assigned := physOffsetOf s.pages (addr / t.pageSize) ≠ ioMemUnassigned
  if isMemory t physOffset ∧ ¬(assigned ∧ (checkSubpage t c addr).2.2) then
    physOffset + t.pageSize
  else physOffset

def registerLoop (c : Registration) (endAddr : Nat) :
    Nat → (addr physOffset regionOffset : Nat) → PhysState → Except Fault PhysState
  | 0, _, _, _, _ => .error .endlessLoop
  | fuel + 1, addr, physOffset, regionOffset, s =>
    registerPage t c addr physOffset regionOffset s >>= fun s' =>
    let next := (addr + t.pageSize) % t.space
    if next = endAddr then .ok s'
    else registerLoop c endAddr fuel next (nextOffset t c addr physOffset s)
      (regionOffset + t.pageSize) s'

def cpuRegisterPhysicalMemoryLog (s : PhysState) (c : Registration) : Except Fault PhysState :=
  if c.size = 0 then .error (.assertFailed "size")
  else
    let regionOffset := if c.physOffset = ioMemUnassigned then c.startAddr else c.regionOffset
    let size := (c.size + t.pageSize - 1) / t.pageSize * t.pageSize
    registerLoop t c ((c.startAddr + size) % t.space) (t.space / t.pageSize) c.startAddr
      c.physOffset (regionOffset / t.pageSize * t.pageSize) s

/-- No page is registered; `used` are the entries of the table of I/O functions. -/
def unregistered (used : Nat → Bool) : PhysState := ⟨fun _ => none, used, fun _ => none⟩

/-! ## Accesses -/

/-- Where an access to a byte ends. -/
inductive Access
  | ram (addr : Nat)
  | io (index addr : Nat)
  | unassigned
  deriving DecidableEq

def handler (index addr : Nat) : Access :=
  if index = ioMemUnassigned / 8 then .unassigned else .io index addr

/-- The I/O functions of an entry; those of a subpage call further ones. -/
def ioAccess (s : PhysState) (index addr : Nat) : Access :=
  match s.subpages index with
  | none => handler index addr
  | some mmio =>
    let idx := addr % t.pageSize
    handler (mmio.subIoIndex idx) ((addr + mmio.regionOffset idx) % t.space)

/-- The branches of `cpu_physical_memory_rw`, for one byte. -/
def dispatch (isWrite : Bool) (s : PhysState) (addr : Nat) : Access :=
  let pd := physOffsetOf s.pages (addr / t.pageSize)
  let memory := if isWrite then decide (pd % t.pageSize = ioMemRam) else isMemory t pd
  if memory then .ram (pd / t.pageSize * t.pageSize + addr % t.pageSize)
  else
    let addr1 := match s.pages (addr / t.pageSize) with
      | none => addr
      | some p => (addr % t.pageSize + p.regionOffset) % t.space
    ioAccess t s (pd / 8 % t.entries) addr1

/-! ## What is documented -/

def Registration.covers (a : Nat) : Bool :=
  decide (c.startAddr ≤ a ∧ a < c.startAddr + c.size)

/-- Where an access to an address of the range is to go. -/
def Registration.reaches (a : Nat) : Access :=
  if c.physOffset = ioMemUnassigned then .unassigned
  else if c.physOffset % t.pageSize = ioMemRam then .ram (c.physOffset + (a - c.startAddr))
  else .io (c.physOffset / 8) ((a - c.startAddr / t.pageSize * t.pageSize +
    c.regionOffset / t.pageSize * t.pageSize) % t.space)

end

/-- The last call whose range has the address says where an access goes. -/
def documented (calls : List Registration) (a : Nat) : Access :=
  calls.foldl (fun owner c => if c.covers a then c.reaches t a else owner) .unassigned

end

end QemuStm32.Exec
