import QemuStm32.Fault
import QemuStm32.Lib.Runs

/-!
# Memory regions and the flat view

The part of `memory.c` that flattens a tree of memory regions into a view of
disjoint ranges. `Int128` is `Int`: a region is visited only while it meets the
64-bit space, so every sum stays far below 127 bits.
-/

namespace QemuStm32.Memory

/-- `2^64`, the size of the address space. -/
def spaceSize : Int := 2 ^ 64

/-- `int128_get64`, which asserts that the high half is zero. -/
def get64 (a : Int) : Except Fault Nat :=
  if 0 ≤ a ∧ a < spaceSize then .ok a.toNat else .error (.assertFailed "!a.hi")

/-! ## Address ranges -/

structure AddrRange where
  start : Int
  size : Int
  deriving DecidableEq, Repr

def AddrRange.end (r : AddrRange) : Int := r.start + r.size

def AddrRange.contains (r : AddrRange) (addr : Int) : Bool :=
  decide (addr ≥ r.start ∧ addr < r.end)

def AddrRange.intersects (r s : AddrRange) : Bool := r.contains s.start || s.contains r.start

def AddrRange.intersection (r s : AddrRange) : AddrRange :=
  let start := max r.start s.start
  let stop := min r.end s.end
  ⟨start, stop - start⟩

/-- The whole space, the clip of the root. -/
def AddrRange.space : AddrRange := ⟨0, spaceSize⟩

/-! ## Regions -/

/-- The fields of `MemoryRegion` that rendering reads. `id` stands for the
address of the structure, which is what the code compares. -/
structure RegionInfo where
  id : Nat
  parent : Option Nat
  addr : BitVec 64
  size : Nat
  size_le : size ≤ 2 ^ 64
  terminates : Bool
  readable : Bool
  readonly : Bool
  dirtyLogMask : BitVec 8
  aliasOffset : BitVec 64
  priority : BitVec 32
  deriving DecidableEq, Repr

/-- `MemoryRegion` with its alias and its `subregions` queue. -/
inductive MemoryRegion
  | mk (info : RegionInfo) (target : Option MemoryRegion) (subregions : List MemoryRegion)

def MemoryRegion.info : MemoryRegion → RegionInfo
  | .mk info _ _ => info

/-! ## The flat view -/

structure FlatRange where
  mr : Nat
  offsetInRegion : Nat
  addr : AddrRange
  dirtyLogMask : BitVec 8
  readable : Bool
  readonly : Bool
  deriving DecidableEq, Repr

/-- The `ranges` of a `FlatView`, in order. -/
abbrev FlatView := List FlatRange

def canMerge (r1 r2 : FlatRange) : Bool :=
  decide (r1.addr.end = r2.addr.start) && decide (r1.mr = r2.mr) &&
    decide ((r1.offsetInRegion : Int) + r1.addr.size = r2.offsetInRegion) &&
    decide (r1.dirtyLogMask = r2.dirtyLogMask) && decide (r1.readable = r2.readable) &&
    decide (r1.readonly = r2.readonly)

/-- The inner loop of `flatview_simplify`: `acc` is `ranges[i]`, which grows,
and `last` is `ranges[j - 1]`, which the next range is compared with. -/
def absorb (acc last : FlatRange) : List FlatRange → List FlatRange
  | [] => [acc]
  | r :: rs =>
    if canMerge last r then
      absorb { acc with addr := ⟨acc.addr.start, acc.addr.size + r.addr.size⟩ } r rs
    else acc :: absorb r r rs

def flatviewSimplify : FlatView → FlatView
  | [] => []
  | r :: rs => absorb r r rs

/-! ## Rendering -/

/-- The range the rendering of `mr` inserts at `base`. -/
def freshRange (mr : RegionInfo) (readonly : Bool) (offset : Nat) (base size : Int) :
    FlatRange where
  mr := mr.id
  offsetInRegion := offset
  addr := ⟨base, size⟩
  dirtyLogMask := mr.dirtyLogMask
  readable := mr.readable
  readonly := readonly

/-- `offset_in_region += int128_get64(now)`, on a `target_phys_addr_t`. -/
def advanceOffset (offset : Nat) (now : Int) : Except Fault Nat := do
  let n ← get64 now
  .ok ((offset + n) % 2 ^ 64)

/-- The second half of a round: the part of the region that starts where the
range `r` does is hidden by it. -/
def skipRange (r : FlatRange) (base remain : Int) (offset : Nat) :
    Except Fault (Int × Int × Nat) :=
  if base = r.addr.start then do
    let now := min remain r.addr.size
    let offset ← advanceOffset offset now
    .ok (base + now, remain - now, offset)
  else .ok (base, remain, offset)

/-- The loop that renders a region into the gaps of the view, over the ranges
from the current one on. -/
def renderGaps (mr : RegionInfo) (readonly : Bool) :
    List FlatRange → (base remain : Int) → (offset : Nat) → Except Fault (List FlatRange)
  | [], base, remain, offset =>
    .ok (if remain ≠ 0 then [freshRange mr readonly offset base remain] else [])
  | r :: rs, base, remain, offset =>
    if remain = 0 then .ok (r :: rs)
    else if base ≥ r.addr.end then do
      let rest ← renderGaps mr readonly rs base remain offset
      .ok (r :: rest)
    else if base < r.addr.start then do
      let now := min remain (r.addr.start - base)
      let fresh := freshRange mr readonly offset base now
      let offset ← advanceOffset offset now
      let (base, remain, offset) ← skipRange r (base + now) (remain - now) offset
      let rest ← renderGaps mr readonly rs base remain offset
      .ok (fresh :: r :: rest)
    else do
      let (base, remain, offset) ← skipRange r base remain offset
      let rest ← renderGaps mr readonly rs base remain offset
      .ok (r :: rest)

/-- The part of `render_memory_region` after the subregions: the region itself,
at `base` and within `clip`. -/
def renderSelf (view : FlatView) (mr : RegionInfo) (base : Int) (clip : AddrRange)
    (readonly : Bool) : Except Fault FlatView := do
  let offset ← get64 (clip.start - base)
  renderGaps mr readonly view clip.start clip.size offset

mutual

def renderMemoryRegion (view : FlatView) :
    MemoryRegion → (base : Int) → (clip : AddrRange) → (readonly : Bool) → Except Fault FlatView
  | .mk mr target subregions, base, clip, readonly =>
    let base := base + mr.addr.toNat
    let readonly := readonly || mr.readonly
    let tmp : AddrRange := ⟨base, mr.size⟩
    if !tmp.intersects clip then .ok view
    else
      let clip := tmp.intersection clip
      match target with
      | some aliased =>
        let base := base - aliased.info.addr.toNat - mr.aliasOffset.toNat
        renderMemoryRegion view aliased base clip readonly
      | none => do
        let view ← renderSubregions view subregions base clip readonly
        if !mr.terminates then .ok view else renderSelf view mr base clip readonly

def renderSubregions (view : FlatView) :
    List MemoryRegion → (base : Int) → (clip : AddrRange) → (readonly : Bool) →
      Except Fault FlatView
  | [], _, _, _ => .ok view
  | subregion :: rest, base, clip, readonly => do
    let view ← renderMemoryRegion view subregion base clip readonly
    renderSubregions view rest base clip readonly

end

def generateMemoryTopology (mr : MemoryRegion) : Except Fault FlatView := do
  let view ← renderMemoryRegion [] mr 0 .space false
  .ok (flatviewSimplify view)

end QemuStm32.Memory
