import QemuStm32.Fault
import QemuStm32.Savevm.File

/-!
# Descriptions of device state

`vmstate_save_state` and `vmstate_load_state` of `savevm.c`: two interpreters of a
`VMStateDescription`. The saver writes the bytes of the fields and then the needed
subsections; the loader reads the fields and then subsections for as long as what
comes next looks like the header of one.
-/

namespace QemuStm32.Savevm

open Readers

/-! ## Memory -/

/-- The memory of the host. -/
abbrev Mem := Int → Byte

namespace Mem

variable (m : Mem) (a : Int)

/-- `n` bytes from `a` on. -/
def read (n : Nat) : List Byte := (List.range n).map fun (i : Nat) => m (a + i)

def write (bs : List Byte) : Mem := fun x =>
  if a ≤ x ∧ x < a + bs.length then bs.getD (x - a).toNat 0 else m x

/-- The host is little-endian. -/
def word : BitVec 32 := m (a + 3) ++ m (a + 2) ++ m (a + 1) ++ m a

def half : BitVec 16 := m (a + 1) ++ m a

/-- `*(void **)a`. -/
def deref : Int := (m.word (a + 4) ++ m.word a : BitVec 64).toNat

end Mem

/-! ## Descriptions -/

/-- A C string, without its end. -/
abbrev Str := List Byte

/-- `VMStateInfo`. What it puts depends on the memory, what it gets goes there. -/
structure VMStateInfo where
  get : Mem → (addr size : Int) → Taker Fault (Int × Mem)
  put : Mem → (addr size : Int) → List Byte

/-- `vmstate_info_int8` to `vmstate_info_uint64`: integers of `n` bytes, in the stream
with the high byte first. -/
def VMStateInfo.integer (n : Nat) : VMStateInfo where
  get m addr _ := Taker.bytes n fun bs => .done (0, m.write addr bs.reverse)
  put m addr _ := (m.read addr n).reverse

/-- `vmstate_info_buffer`. -/
def VMStateInfo.buffer : VMStateInfo where
  get m addr size := .getBytes size.toNat fun bs => .done (0, m.write addr bs)
  put m addr size := m.read addr size.toNat

/-- The count flags: `VMS_SINGLE`, `VMS_ARRAY` and the four `VMS_VARRAY`. -/
inductive Count
  | single
  | array (num : Int)
  | int32 (numOffset : Int)
  | uint32 (numOffset : Int)
  | uint16 (numOffset : Int)
  | uint8 (numOffset : Int)

/-- A `VMStateField` without what its elements are. `vbuffer` is `VMS_VBUFFER` with
`size_offset` and `VMS_MULTIPLY`, `pointer` is `VMS_POINTER` with `start`. -/
structure Shape where
  versionId : Int
  fieldExists : Option (Mem → Int → Int → Bool)
  offset : Int
  size : Int
  vbuffer : Option (Int × Bool)
  count : Count
  pointer : Option Int
  arrayOfPointer : Bool

/-- A `VMStateDescription` without its fields and subsections. -/
structure Header where
  name : Str
  versionId : Int
  minimumVersionId : Int
  minimumVersionIdOld : Int
  loadStateOld : Mem → Int → Int → Taker Fault (Int × Mem)
  preLoad : Option (Mem → Int → Int × Mem)
  postLoad : Option (Mem → Int → Int → Int × Mem)
  preSave : Option (Mem → Int → Mem)

mutual

inductive Description
  | mk (header : Header) (fields : List Field) (subsections : List Subsection)

inductive Field
  | plain (shape : Shape) (info : VMStateInfo)
  | struct (shape : Shape) (vmsd : Description)

inductive Subsection
  | mk (needed : Mem → Int → Bool) (vmsd : Description)

end

def Description.header : Description → Header
  | .mk header _ _ => header

namespace Header

def runPreSave (d : Header) (m : Mem) (state : Int) : Mem :=
  match d.preSave with
  | some preSave => preSave m state
  | none => m

def runPreLoad (d : Header) (m : Mem) (state : Int) : Int × Mem :=
  match d.preLoad with
  | some preLoad => preLoad m state
  | none => (0, m)

def runPostLoad (d : Header) (m : Mem) (state version : Int) : Int × Mem :=
  match d.postLoad with
  | some postLoad => postLoad m state version
  | none => (0, m)

end Header

/-! ## Elements of a field -/

namespace Shape

variable (s : Shape) (m : Mem)

/-- The size of an element, an `int`. -/
def elemSize (state : Int) : Int :=
  match s.vbuffer with
  | none => s.size
  | some (sizeOffset, multiply) =>
    let size := (m.word (state + sizeOffset)).toInt
    if multiply then (BitVec.ofInt 32 (size * s.size)).toInt else size

/-- `n_elems` of the loader. -/
def loadCount (state : Int) : Int :=
  match s.count with
  | .single => 1
  | .array num => num
  | .int32 numOffset => (m.word (state + numOffset)).toInt
  | .uint32 numOffset => (m.word (state + numOffset)).toInt
  | .uint16 numOffset => (m.half (state + numOffset)).toNat
  | .uint8 numOffset => (m (state + numOffset)).toNat

/-- `n_elems` of the saver, which does not know `VMS_VARRAY_UINT32`. -/
def saveCount (state : Int) : Int :=
  match s.count with
  | .single => 1
  | .array num => num
  | .int32 numOffset => (m.word (state + numOffset)).toInt
  | .uint32 _ => 1
  | .uint16 numOffset => (m.half (state + numOffset)).toNat
  | .uint8 numOffset => (m (state + numOffset)).toNat

def baseAddr (state : Int) : Int :=
  match s.pointer with
  | none => state + s.offset
  | some start => m.deref (state + s.offset) + start

/-- Where an element is, when the base and the size are known. -/
def elemAddr (base size : Int) (m : Mem) (i : Nat) : Int :=
  let addr := base + size * i
  if s.arrayOfPointer then m.deref addr else addr

def loadExists (state version : Int) : Bool :=
  match s.fieldExists with
  | some fieldExists => fieldExists m state version
  | none => decide (s.versionId ≤ version)

def saveExists (state version : Int) : Bool :=
  match s.fieldExists with
  | some fieldExists => fieldExists m state version
  | none => true

end Shape

/-! ## Saving -/

/-- What is written, and the memory after it: hooks may change it. -/
abbrev Saver := Mem → Int → List Byte × Mem

/-- Elements from `i` on, `left` of them. -/
def saveElems (save : Saver) (addr : Mem → Nat → Int) :
    (left i : Nat) → Mem → List Byte × Mem
  | 0, _, m => ([], m)
  | left + 1, i, m =>
    let (bs, m) := save m (addr m i)
    let (more, m) := saveElems save addr left (i + 1) m
    (bs ++ more, m)

/-- The elements of a field, each of them saved with the size. -/
def Shape.save (s : Shape) (version : Int) (elem : (size : Int) → Saver) : Saver :=
  fun m state =>
    if s.saveExists m state version then
      let size := s.elemSize m state
      saveElems (elem size) (s.elemAddr (s.baseAddr m state) size)
        (s.saveCount m state).toNat 0 m
    else ([], m)

/-- `QEMU_VM_SUBSECTION`. -/
def vmSubsection : Byte := 0x05

/-- What stands before the state of a subsection. The length of the name is cut to a
byte. -/
def subsectionHeader (name : Str) (version : Int) : List Byte :=
  let len : Byte := BitVec.ofNat 8 name.length
  vmSubsection :: len :: name.take len.toNat ++ be32 (BitVec.ofInt 32 version)

mutual

def Description.save : Description → Saver
  | .mk d fields subsections => fun m state =>
    let m := d.runPreSave m state
    let (bs, m) := saveFields fields d.versionId m state
    let (more, m) := saveSubsections subsections m state
    (bs ++ more, m)

def Field.save : Field → (version : Int) → Saver
  | .plain shape info, version =>
    shape.save version fun size m addr => (info.put m addr size, m)
  | .struct shape vmsd, version => shape.save version fun _ => vmsd.save

def saveFields : List Field → (version : Int) → Saver
  | [], _ => fun m _ => ([], m)
  | field :: fields, version => fun m state =>
    let (bs, m) := field.save version m state
    let (more, m) := saveFields fields version m state
    (bs ++ more, m)

def saveSubsections : List Subsection → Saver
  | [] => fun m _ => ([], m)
  | .mk needed vmsd :: subsections => fun m state =>
    let (bs, m) :=
      if needed m state then
        let (bs, m) := vmsd.save m state
        (subsectionHeader vmsd.header.name vmsd.header.versionId ++ bs, m)
      else ([], m)
    let (more, m) := saveSubsections subsections m state
    (bs ++ more, m)

end

/-! ## Loading -/

/-- The return value and the memory. -/
abbrev Loader := Mem → (state version : Int) → Reader Fault (Int × Mem)

def einval : Int := -22
def enoent : Int := -2

/-- Elements from `i` on, `left` of them, until one fails. -/
def loadElems (load : Mem → Int → Reader Fault (Int × Mem)) (addr : Mem → Nat → Int) :
    (left i : Nat) → Mem → Reader Fault (Int × Mem)
  | 0, _, m => pure (0, m)
  | left + 1, i, m => do
    let (ret, m) ← load m (addr m i)
    if ret < 0 then pure (ret, m) else loadElems load addr left (i + 1) m

def Shape.load (s : Shape) (elem : (size : Int) → Mem → Int → Reader Fault (Int × Mem)) :
    Loader :=
  fun m state version =>
    if s.loadExists m state version then
      let size := s.elemSize m state
      loadElems (elem size) (s.elemAddr (s.baseAddr m state) size)
        (s.loadCount m state).toNat 0 m
    else pure (0, m)

/-- A C string ends at the first zero. -/
def cstring (bs : List Byte) : Str := bs.takeWhile (· ≠ 0)

theorem cstring_eq {str : Str} (h : 0 ∉ str) : cstring str = str := by
  unfold cstring
  rw [List.takeWhile_eq_self_iff]
  intro c mem
  have : c ≠ 0 := fun zero => h (zero ▸ mem)
  simpa using this

/-- The loop of `vmstate_subsection_load` over the loaders of the subsections. -/
def subsectionLoad (name : Str) (subsections : List (Str × Loader)) :
    (rounds : Nat) → Mem → Int → Reader Fault (Int × Mem)
  | 0, _, _ => .fault .endlessLoop
  | rounds + 1, m, state =>
    .peekByte 0 fun b =>
      if b ≠ vmSubsection then pure (0, m)
      else .peekByte 1 fun len =>
        if len.toNat < name.length + 1 then pure (0, m)
        else .peekBytes len.toNat 2 fun idstr =>
          if idstr.length ≠ len.toNat then pure (0, m)
          else if idstr.take name.length ≠ name then pure (0, m)
          else match subsections.find? fun sub => sub.1 = cstring idstr with
            | none => pure (enoent, m)
            | some (_, load) => .skip 1 <| .skip 1 <| .skip len.toNat do
              let v ← Reader.getBe32
              let (ret, m) ← load m state (v.extractLsb' 0 8).toNat
              if ret ≠ 0 then pure (ret, m)
              else subsectionLoad name subsections rounds m state

/-- What surrounds the fields and the subsections. -/
def Header.load (d : Header) (fields : Loader)
    (subsections : Mem → Int → Reader Fault (Int × Mem)) : Loader :=
  fun m state version =>
    if version > d.versionId then pure (einval, m)
    else if version < d.minimumVersionIdOld then pure (einval, m)
    else if version < d.minimumVersionId then (d.loadStateOld m state version).toReader
    else do
      let (ret, m) := d.runPreLoad m state
      if ret ≠ 0 then pure (ret, m)
      else
        let (ret, m) ← fields m state version
        if ret < 0 then pure (ret, m)
        else
          let (ret, m) ← subsections m state
          if ret ≠ 0 then pure (ret, m)
          else pure (d.runPostLoad m state version)

mutual

/-- `rounds` bounds how many subsections a loop loads. -/
def Description.load (rounds : Nat) : Description → Loader
  | .mk d fields subsections =>
    d.load (loadFields rounds fields)
      (subsectionLoad d.name (subsectionLoaders rounds subsections) rounds)

def Field.load (rounds : Nat) : Field → Loader
  | .plain shape info => shape.load fun size m addr => (info.get m addr size).toReader
  | .struct shape vmsd =>
    shape.load fun _ m addr => vmsd.load rounds m addr vmsd.header.versionId

def loadFields (rounds : Nat) : List Field → Loader
  | [] => fun m _ _ => pure (0, m)
  | field :: fields => fun m state version => do
    let (ret, m) ← field.load rounds m state version
    if ret < 0 then pure (ret, m) else loadFields rounds fields m state version

def subsectionLoaders (rounds : Nat) : List Subsection → List (Str × Loader)
  | [] => []
  | .mk _ vmsd :: subsections =>
    (vmsd.header.name, vmsd.load rounds) :: subsectionLoaders rounds subsections

end

end QemuStm32.Savevm
