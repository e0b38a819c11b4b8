import QemuStm32.Fault
import QemuStm32.Lib.Circles
import QemuStm32.Lib.Runs
import QemuStm32.Lib.SlotLists

/-!
# Translation blocks

The lists of translation blocks in `exec.c`: the chains of the physical hash table, the lists
of the blocks of each page, the circular lists of the jumps to a block, and the jump caches.
`k` is `TARGET_PAGE_BITS`; `rounds` bounds the loops, which end at a null pointer or where they
began.
-/

namespace QemuStm32.Tb

open Runs SlotLists Circles
open Function (update)

abbrev Byte := BitVec 8

/-- `(long)tb | n`: a block, as an index in `tbs`, and one of its pages or jumps. -/
abbrev Node := Nat × Fin 2

scoped instance twoLinks : NeZero 2 := ⟨by decide⟩

/-- The fields of a block that are not links. There is a jump `n` if `tb_next_offset[n]` is not
`0xffff`; `page_addr[1]` is -1 for `none`. -/
structure TranslationBlock where
  pc : Nat
  size : Nat
  hasJump : Fin 2 → Bool
  page0 : Nat
  page1 : Option Nat

def TranslationBlock.pageAddr (b : TranslationBlock) : Fin 2 → Option Nat
  | 0 => some b.page0
  | 1 => b.page1

/-- The blocks and all pointers to them. A page without descriptor is one without blocks. -/
structure State where
  tbs : Nat → TranslationBlock
  /-- The blocks that were linked and not invalidated since. -/
  live : Nat → Bool
  /-- `tb_phys_hash` and `phys_hash_next`. -/
  hash : Pointers Nat Nat
  /-- `first_tb` of each page and `page_next`. -/
  pages : Pointers Nat Node
  codeBitmap : Nat → Option (List Byte)
  codeWriteCount : Nat → Nat
  /-- `jmp_first` is the slot `head`, `jmp_next` the slots `after`; the tags say which slot a
  pointer means. -/
  jmp : Slot Nat Node → Option (Slot Nat Node)
  /-- The block whose code the jump is patched to. -/
  target : Node → Option Nat
  tbJmpCache : Nat → Nat → Option Nat
  physDirty : Nat → Byte

def smcBitmapUseThreshold : Nat := 10

def codeDirtyFlag : Byte := 0x02

section
variable (k : Nat)

/-! ## Hash functions -/

def tbPhysHashFunc (pc : Nat) : Nat := pc / 4 % 2 ^ 15

def tbJmpCacheHashFunc (pc : Nat) : Nat :=
  let tmp := pc ^^^ (pc >>> (k - 6))
  ((tmp >>> (k - 6)) &&& (2 ^ 12 - 2 ^ 6)) ||| (tmp &&& (2 ^ 6 - 1))

def TranslationBlock.physPc (b : TranslationBlock) : Nat := b.page0 + b.pc % 2 ^ k

/-! ## Removal -/

/-- The loop of `tb_remove` and `tb_page_remove`: the first element that matches is taken out.
Behind the last one the null pointer is followed. -/
def removeFirst {ι α : Type} [DecidableEq ι] [DecidableEq α] (m : Pointers ι α) (is : α → Bool)
    (rounds : Nat) (i : ι) : Except Fault (Pointers ι α) :=
  match m.seek is rounds (.head i) with
  | none => .error .endlessLoop
  | some slot =>
    match m.read slot with
    | none => .error (.outOfBounds "tb1" 0)
    | some a => .ok (m.assign (m.next a) slot)

def tbRemove (rounds h tb : Nat) (s : State) : Except Fault State :=
  removeFirst s.hash (fun tb1 => tb1 = tb) rounds h >>= fun hash => .ok { s with hash := hash }

def tbPageRemove (rounds i tb : Nat) (s : State) : Except Fault State :=
  removeFirst s.pages (fun x => x.1 = tb) rounds i >>= fun pages => .ok { s with pages := pages }

def invalidatePageBitmap (i : Nat) (s : State) : State :=
  { s with
    codeBitmap := update s.codeBitmap i none
    codeWriteCount := update s.codeWriteCount i 0 }

def tbJmpRemove (rounds : Nat) (x : Node) (s : State) : Except Fault State :=
  match s.jmp (.after x) with
  | none => .ok s
  | some next =>
    match pointerTo s.jmp (.after x) rounds (.after x) with
    | none => .error .endlessLoop
    | some ptb => .ok { s with
        jmp := update (update s.jmp ptb (some next)) (.after x) none }

/-- The loop over the jumps to a block, from one of them on. -/
def resetJumps : Nat → Option (Slot Nat Node) → State → Except Fault State
  | 0, _, _ => .error .endlessLoop
  | _ + 1, none, _ => .error (.outOfBounds "tb1" 0)
  | _ + 1, some (.head _), s => .ok s
  | rounds + 1, some (.after x), s =>
    resetJumps rounds (s.jmp (.after x)) { s with
      target := update s.target x none
      jmp := update s.jmp (.after x) none }

section
variable (rounds tb : Nat) (pageAddr : Option Nat)

/-- The block leaves the list of its page `n`; `pageAddr` is a page whose list is not to be
changed. -/
def leavePage (n : Fin 2) (s : State) : Except Fault State :=
  match (s.tbs tb).pageAddr n with
  | none => .ok s
  | some addr =>
    if some addr = pageAddr then .ok s
    else tbPageRemove rounds (addr / 2 ^ k) tb s >>= fun s =>
      .ok (invalidatePageBitmap (addr / 2 ^ k) s)

def leavePages (s : State) : Except Fault State :=
  leavePage k rounds tb pageAddr 0 s >>= leavePage k rounds tb pageAddr 1

def forgetCached (tb : Nat) (s : State) : State :=
  let h := tbJmpCacheHashFunc k (s.tbs tb).pc
  { s with tbJmpCache := fun cpu h' =>
      if h' = h ∧ s.tbJmpCache cpu h' = some tb then none else s.tbJmpCache cpu h' }

/-- The block leaves the two jump lists, and the jumps to it are reset. -/
def leaveJumps (s : State) : Except Fault State :=
  tbJmpRemove rounds (tb, 0) s >>= fun s =>
  tbJmpRemove rounds (tb, 1) s >>= fun s =>
  resetJumps rounds (s.jmp (.head tb)) s

def tbPhysInvalidate (s : State) : Except Fault State :=
  tbRemove rounds (tbPhysHashFunc ((s.tbs tb).physPc k)) tb s >>= fun s =>
  leavePages k rounds tb pageAddr s >>= fun s =>
  leaveJumps rounds tb (forgetCached k tb s) >>= fun s =>
  .ok { s with
    jmp := update s.jmp (.head tb) (some (.head tb))
    live := update s.live tb false }

end

/-! ## The bitmap of the code on a page -/

def orByte (tab : List Byte) (i : Nat) (mask : Byte) : Except Fault (List Byte) :=
  match tab[i]? with
  | none => .error (.outOfBounds "code_bitmap" i)
  | some b => .ok (tab.set i (b ||| mask))

/-- Writes `0xff` to `count` bytes. -/
def fillBytes : Nat → Nat → List Byte → Except Fault (List Byte)
  | 0, _, tab => .ok tab
  | count + 1, i, tab =>
    if i < tab.length then fillBytes count (i + 1) (tab.set i 0xff)
    else .error (.outOfBounds "code_bitmap" i)

def setBits (tab : List Byte) (start len : Nat) : Except Fault (List Byte) :=
  let end_ := start + len
  let mask := (0xff : Byte) <<< (start % 8)
  let low := ~~~((0xff : Byte) <<< (end_ % 8))
  if start / 8 = end_ / 8 then
    if start < end_ then orByte tab (start / 8) (mask &&& low) else .ok tab
  else
    orByte tab (start / 8) mask >>= fun tab =>
    fillBytes (end_ / 8 - (start / 8 + 1)) (start / 8 + 1) tab >>= fun tab =>
    -- the loop ends at the last multiple of 8
    if end_ / 8 * 8 < end_ then orByte tab (end_ / 8) low else .ok tab

section
variable (b : TranslationBlock)

/-- The bytes of a page that a block covers, for `build_page_bitmap`. -/
def bitmapPart : Fin 2 → Nat × Nat
  | 0 => (b.pc % 2 ^ k, min (b.pc % 2 ^ k + b.size) (2 ^ k))
  | 1 => (0, (b.pc + b.size) % 2 ^ k)

def buildLoop (s : State) : Nat → Option Node → List Byte → Except Fault (List Byte)
  | _, none, tab => .ok tab
  | 0, some _, _ => .error .endlessLoop
  | rounds + 1, some (tb, n), tab =>
    let (tbStart, tbEnd) := bitmapPart k (s.tbs tb) n
    setBits tab tbStart (tbEnd - tbStart) >>= fun tab =>
    buildLoop s rounds (s.pages.next (tb, n)) tab

def buildPageBitmap (rounds i : Nat) (s : State) : Except Fault State :=
  buildLoop k s rounds (s.pages.first i) (List.replicate (2 ^ k / 8) 0) >>= fun tab =>
  .ok { s with codeBitmap := update s.codeBitmap i (some tab) }

/-! ## Invalidation of a range -/

/-- `tb_start` and `tb_end` of `tb_invalidate_phys_page_range`. -/
def part : Fin 2 → Nat × Nat
  | 0 => (b.physPc k, b.physPc k + b.size)
  | 1 => (b.page1.getD (2 ^ 64 - 1), b.page1.getD (2 ^ 64 - 1) + (b.pc + b.size) % 2 ^ k)

def hits (n : Fin 2) (start end_ : Nat) : Bool :=
  !((part k b n).2 ≤ start || (part k b n).1 ≥ end_)

end

/-- The loop over the blocks of the page. The next one is read before a block is invalidated. -/
def invalidateLoop (start end_ fuel : Nat) : Nat → Option Node → State → Except Fault State
  | _, none, s => .ok s
  | 0, some _, _ => .error .endlessLoop
  | rounds + 1, some (tb, n), s =>
    let next := s.pages.next (tb, n)
    if hits k (s.tbs tb) n start end_ then
      tbPhysInvalidate k fuel tb none s >>= fun s => invalidateLoop start end_ fuel rounds next s
    else invalidateLoop start end_ fuel rounds next s

/-- The bitmap is built at the tenth write. -/
def countWrite (rounds i : Nat) (isCpuWriteAccess : Bool) (s : State) : Except Fault State :=
  match s.codeBitmap i with
  | some _ => .ok s
  | none =>
    let s := { s with
      codeWriteCount := update s.codeWriteCount i (s.codeWriteCount i + 1) }
    if s.codeWriteCount i ≥ smcBitmapUseThreshold && isCpuWriteAccess then
      buildPageBitmap k rounds i s
    else .ok s

def tlbUnprotectCodePhys (i : Nat) (s : State) : State :=
  { s with physDirty := update s.physDirty i (s.physDirty i ||| codeDirtyFlag) }

def tbInvalidatePhysPageRange (rounds start end_ : Nat) (isCpuWriteAccess : Bool) (s : State) :
    Except Fault State :=
  let i := start / 2 ^ k
  countWrite k rounds i isCpuWriteAccess s >>= fun s =>
  invalidateLoop k start end_ rounds rounds (s.pages.first i) s >>= fun s =>
  match s.pages.first i with
  | some _ => .ok s
  | none =>
    let s := invalidatePageBitmap i s
    .ok (if isCpuWriteAccess then tlbUnprotectCodePhys i s else s)

def tbInvalidatePhysPageFast (rounds start len : Nat) (s : State) : Except Fault State :=
  match s.codeBitmap (start / 2 ^ k) with
  | none => tbInvalidatePhysPageRange k rounds start (start + len) true s
  | some tab =>
    let offset := start % 2 ^ k
    match tab[offset / 8]? with
    | none => .error (.outOfBounds "code_bitmap" (offset / 8))
    | some byte =>
      if (byte.toNat >>> (offset % 8)) &&& (2 ^ len - 1) ≠ 0 then
        tbInvalidatePhysPageRange k rounds start (start + len) true s
      else .ok s

/-! ## Linking -/

def tlbProtectCode (i : Nat) (s : State) : State :=
  { s with physDirty := update s.physDirty i (s.physDirty i &&& ~~~codeDirtyFlag) }

/-- A new first element. -/
def push {ι α : Type} [DecidableEq ι] [DecidableEq α] (m : Pointers ι α) (i : ι) (a : α) :
    Pointers ι α :=
  { first := update m.first i (some a), next := update m.next a (m.first i) }

/-- The lists and the protection of a page in `tb_alloc_page`; the address of the page is
stored by `tbLinkPage`. -/
def tbAllocPage (x : Node) (pageAddr : Nat) (s : State) : State :=
  let i := pageAddr / 2 ^ k
  let s' := invalidatePageBitmap i { s with pages := push s.pages i x }
  match s.pages.first i with
  | some _ => s'
  | none => tlbProtectCode i s'

def tbResetJump (x : Node) (s : State) : State :=
  if (s.tbs x.1).hasJump x.2 then { s with target := update s.target x none } else s

def tbLinkPage (tb physPc : Nat) (physPage2 : Option Nat) (s : State) : State :=
  let b := { s.tbs tb with page0 := physPc / 2 ^ k * 2 ^ k, page1 := physPage2 }
  let s := { s with
    tbs := update s.tbs tb b
    hash := push s.hash (tbPhysHashFunc physPc) tb }
  let s := tbAllocPage k (tb, 0) b.page0 s
  let s := match physPage2 with
    | some addr => tbAllocPage k (tb, 1) addr s
    | none => s
  let s := { s with
    jmp := update (update (update s.jmp (.head tb) (some (.head tb)))
      (.after (tb, 0)) none) (.after (tb, 1)) none
    live := update s.live tb true }
  tbResetJump (tb, 1) (tbResetJump (tb, 0) s)

def tbAddJump (x : Node) (tbNext : Nat) (s : State) : State :=
  match s.jmp (.after x) with
  | some _ => s
  | none => { s with
      target := update s.target x (some tbNext)
      jmp := update (update s.jmp (.after x) (s.jmp (.head tbNext)))
        (.head tbNext) (some (.after x)) }

def tbFlush (s : State) : State :=
  { s with
    live := fun _ => false
    tbJmpCache := fun _ _ => none
    hash := { s.hash with first := fun _ => none }
    pages := { s.pages with first := fun _ => none }
    codeBitmap := fun _ => none
    codeWriteCount := fun _ => 0 }

/-! ## Runs -/

inductive Event
  /-- A block was generated in `tbs[tb]` and is linked. -/
  | link (tb pc size : Nat) (hasJump : Fin 2 → Bool) (physPc : Nat) (physPage2 : Option Nat)
  | addJump (x : Node) (tbNext : Nat)
  /-- `tb_find_slow` of a CPU found the block. -/
  | found (cpu tb : Nat)
  | invalidate (start end_ : Nat) (isCpuWriteAccess : Bool)
  | flush

def step (rounds : Nat) (s : State) : Event → Except Fault State
  | .link tb pc size hasJump physPc physPage2 =>
    .ok (tbLinkPage k tb physPc physPage2 { s with
      tbs := update s.tbs tb
        { s.tbs tb with pc := pc, size := size, hasJump := hasJump } })
  | .addJump x tbNext => .ok (tbAddJump x tbNext s)
  | .found cpu tb => .ok { s with
      tbJmpCache := update s.tbJmpCache cpu
        (update (s.tbJmpCache cpu) (tbJmpCacheHashFunc k (s.tbs tb).pc) (some tb)) }
  | .invalidate start end_ isCpuWriteAccess =>
    tbInvalidatePhysPageRange k rounds start end_ isCpuWriteAccess s
  | .flush => .ok (tbFlush s)

/-- No block was linked yet. -/
def initial : State where
  tbs _ := ⟨0, 0, fun _ => false, 0, none⟩
  live _ := false
  hash := ⟨fun _ => none, fun _ => none⟩
  pages := ⟨fun _ => none, fun _ => none⟩
  codeBitmap _ := none
  codeWriteCount _ := 0
  jmp _ := none
  target _ := none
  tbJmpCache _ _ := none
  physDirty _ := 0xff

end

end QemuStm32.Tb
