import QemuStm32.Fault

/-!
# The layout of a qcow2 image

`block/qcow2.h`: sizes that follow from the number of cluster bits, the flags of
table entries, and the functions of `block/qcow2-cluster.c` that count entries.
-/

namespace QemuStm32.Qcow2

/-- The fields of `BDRVQcowState` that follow from the header. -/
structure Geometry where
  clusterBits : Nat
  low : 9 ≤ clusterBits
  high : clusterBits ≤ 21
  encrypted : Bool

namespace Geometry

variable (g : Geometry)

def clusterSize : Nat := 2 ^ g.clusterBits
def clusterSectors : Nat := 2 ^ (g.clusterBits - 9)
def l2Size : Nat := 2 ^ (g.clusterBits - 3)

/-- The index of a guest offset in its L2 table. -/
def l2Index (offset : Nat) : Nat := offset / g.clusterSize % g.l2Size

end Geometry

/-- `QCOW_OFLAG_COPIED`. -/
def oflagCopied : BitVec 64 := 1#64 <<< 63
/-- `QCOW_OFLAG_COMPRESSED`. -/
def oflagCompressed : BitVec 64 := 1#64 <<< 62

/-- `QCOW_MAX_CRYPT_CLUSTERS`. -/
def maxCryptClusters : Nat := 32

/-- An `int` from a wider value. -/
def toInt32 (x : Int) : Int := (BitVec.ofInt 32 x).toInt

def sizeToClusters (g : Geometry) (size : Int) : Int :=
  toInt32 ((size + (g.clusterSize - 1)) / g.clusterSize)

/-- The loop of `count_contiguous_clusters` from entry `i` on, for `n` entries. -/
def countFrom (clusterSize : Nat) (table : Nat → BitVec 64) (offset mask : BitVec 64) :
    Nat → Nat → Nat
  | 0, _ => 0
  | n + 1, i =>
    if offset + BitVec.ofNat 64 (i * clusterSize) ≠ table i &&& ~~~mask then 0
    else 1 + countFrom clusterSize table offset mask n (i + 1)

def countContiguousClusters (nbClusters clusterSize : Nat) (table : Nat → BitVec 64)
    (start : Nat) (mask : BitVec 64) : Nat :=
  let offset := table 0 &&& ~~~mask
  if offset = 0#64 then 0 else countFrom clusterSize table offset mask nbClusters start

def countContiguousFreeClusters : Nat → (Nat → BitVec 64) → Nat
  | 0, _ => 0
  | n + 1, table =>
    if table 0 = 0#64 then 1 + countContiguousFreeClusters n fun i => table (i + 1) else 0

end QemuStm32.Qcow2
