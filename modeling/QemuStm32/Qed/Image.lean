import Mathlib


/-!
# The layout of a QED image

`block/qed.h` and `qed_count_contiguous_clusters`. Offsets and positions are byte
counts. Cluster sizes are powers of two, so the masks of the source are remainders.
-/

namespace QemuStm32.Qed

/-- The fields of the header that stay the same while the image is open, with the checks of
`bdrv_qed_open`, and whether the image has a backing file. -/
structure Image where
  clusterSize : Nat
  tableSize : Nat
  headerSize : Nat
  imageSize : Nat
  backing : Bool
  clusterSizeValid : ∃ bits, 12 ≤ bits ∧ bits ≤ 26 ∧ clusterSize = 2 ^ bits
  tableSizeValid : ∃ bits, bits ≤ 4 ∧ tableSize = 2 ^ bits
  imageSizeValid : imageSize ≤ clusterSize * (clusterSize * tableSize / 8) *
    (clusterSize * tableSize / 8)

/-- An L1 or L2 table: an offset for each index. -/
abbrev Table := Nat → Nat

namespace Image
variable (im : Image)

/-- `table_nelems` -/
def tableNelems : Nat := im.clusterSize * im.tableSize / 8

def qedOffsetIntoCluster (offset : Nat) : Nat := offset % im.clusterSize

def qedStartOfCluster (offset : Nat) : Nat := offset - offset % im.clusterSize

/-- The source divides by `cluster_size - 1`. -/
def qedBytesToClusters (bytes : Nat) : Nat :=
  im.qedStartOfCluster (bytes + (im.clusterSize - 1)) / (im.clusterSize - 1)

/-- The bytes that one L2 table maps: one unit of `l1_shift`. -/
def tableSpan : Nat := im.clusterSize * im.tableNelems

def qedL1Index (pos : Nat) : Nat := pos / im.tableSpan

def qedL2Index (pos : Nat) : Nat := pos / im.clusterSize % im.tableNelems

def qedCheckClusterOffset (fileSize offset : Nat) : Bool :=
  offset % im.clusterSize = 0 && im.headerSize * im.clusterSize ≤ offset && offset < fileSize

def qedCheckTableOffset (fileSize offset : Nat) : Bool :=
  let endOffset := offset + (im.tableSize - 1) * im.clusterSize
  if endOffset ≤ offset then false
  else im.qedCheckClusterOffset fileSize offset && im.qedCheckClusterOffset fileSize endOffset

end Image

def qedOffsetIsUnallocCluster (offset : Nat) : Bool := offset = 0

def qedOffsetIsZeroCluster (offset : Nat) : Bool := offset = 1

/-- An entry names a cluster of the file. -/
def Names (entry : Nat) : Prop := entry ≠ 0 ∧ entry ≠ 1

instance (entry : Nat) : Decidable (Names entry) := inferInstanceAs (Decidable (_ ∧ _))

/-- The loop of `qed_count_contiguous_clusters` from index `i` with `left` turns to go. -/
def countFrom (im : Image) (table : Table) (index : Nat) : Nat → Nat → Nat → Nat
  | _, i, 0 => i - index
  | last, i, left + 1 =>
    if qedOffsetIsUnallocCluster last then
      if qedOffsetIsUnallocCluster (table i) then countFrom im table index last (i + 1) left
      else i - index
    else if qedOffsetIsZeroCluster last then
      if qedOffsetIsZeroCluster (table i) then countFrom im table index last (i + 1) left
      else i - index
    else if table i = last + im.clusterSize then
      countFrom im table index (table i) (i + 1) left
    else i - index

/-- The number of clusters of one kind from `index` on, and the first of them. -/
def qedCountContiguousClusters (im : Image) (table : Table) (index n : Nat) : Nat × Nat :=
  let stop := min (index + n) im.tableNelems
  (countFrom im table index (table index) (index + 1) (stop - (index + 1)), table index)

end QemuStm32.Qed
