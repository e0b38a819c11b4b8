import QemuStm32.Fault
import QemuStm32.Savevm.Vmstate

/-!
# Sections of a saved machine

The list of `SaveStateEntry` of `savevm.c`: devices register their handlers,
`qemu_savevm_state_begin`, `iterate` and `complete` let them write sections, and
`qemu_loadvm_state` finds for each section the entry that is to read it. The machine
that the handlers save and load is any type.
-/

namespace QemuStm32.Savevm

open Readers

/-! ## Strings -/

structure CString where
  chars : Str
  ended : 0 ∉ chars
  deriving DecidableEq

namespace CString

/-- `pstrcpy` into `char[256]`. -/
def pstrcpy (s : CString) : CString :=
  ⟨s.chars.take 255, fun zero => s.ended (List.mem_of_mem_take zero)⟩

/-- `pstrcat` to what is in a `char[256]`. -/
def pstrcat (buf s : CString) : CString :=
  pstrcpy ⟨buf.chars ++ s.chars, fun zero =>
    (List.mem_append.mp zero).elim buf.ended s.ended⟩

def slash : CString := ⟨[0x2f], by decide⟩

/-- `strstr` finds the second in the first. -/
def strstr (s t : CString) : Bool := s.chars.tails.any fun rest => t.chars.isPrefixOf rest

end CString

/-! ## Entries -/

inductive Stage
  | start
  | part
  | end_
  deriving DecidableEq, Repr

/-- The callbacks of a `VMStateDescription`: `vmstate_save_state` and
`vmstate_load_state` with the `opaque` of the entry. -/
structure Handler (σ : Type) where
  save : σ → List Byte × σ
  load : σ → (version : Int) → Reader Fault (Int × σ)

/-- What a device registers. `loadState` can only take bytes: looking ahead is private
to `savevm.c`. -/
structure Ops (σ : Type) where
  saveLiveState : Option (σ → Stage → Int × List Byte × σ)
  saveState : Option (σ → List Byte × σ)
  loadState : σ → (version : Int) → Taker Fault (Int × σ)
  vmsd : Option (Handler σ)

structure CompatEntry where
  idstr : CString
  instanceId : BitVec 32
  deriving DecidableEq

structure SaveStateEntry (σ : Type) where
  idstr : CString
  instanceId : BitVec 32
  aliasId : BitVec 32
  versionId : BitVec 32
  sectionId : BitVec 32
  ops : Ops σ
  compat : Option CompatEntry
  noMigrate : Bool

/-- `savevm_handlers` and `global_section_id`. -/
structure Registry (σ : Type) where
  handlers : List (SaveStateEntry σ)
  globalSectionId : BitVec 32

section
variable {σ : Type}

/-! ## Registering -/

/-- One more than the greatest instance id, and at least zero. -/
def newInstanceId (ids : List (BitVec 32)) : BitVec 32 :=
  ids.foldl (fun instanceId id => if instanceId.sle id then id + 1 else instanceId) 0

variable (s : Registry σ)

def calculateNewInstanceId (idstr : CString) : BitVec 32 :=
  newInstanceId ((s.handlers.filter fun se => se.idstr = idstr).map (·.instanceId))

def calculateCompatInstanceId (idstr : CString) : BitVec 32 :=
  newInstanceId ((s.handlers.filterMap (·.compat)).filter (·.idstr = idstr) |>.map (·.instanceId))

section
variable (path : Option CString)

/-- What the two ways to register have in common: the entry that they make. `path` is
what `get_dev_path` returns for the device, where there is one. -/
def newEntry (name : CString)
    (instanceId aliasId versionId : BitVec 32) (ops : Ops σ) (noMigrate : Bool) :
    SaveStateEntry σ :=
  match path with
  | some id =>
    let idstr := ((id.pstrcpy).pstrcat .slash).pstrcat name
    { idstr, aliasId, versionId, ops, noMigrate
      instanceId := calculateNewInstanceId s idstr
      sectionId := s.globalSectionId
      compat := some {
        idstr := name.pstrcpy
        instanceId := if instanceId = -1 then calculateCompatInstanceId s name else instanceId } }
  | none =>
    let idstr := name.pstrcpy
    { idstr, aliasId, versionId, ops, noMigrate
      instanceId := if instanceId = -1 then calculateNewInstanceId s idstr else instanceId
      sectionId := s.globalSectionId
      compat := none }

/-- The entry goes to the end of the list. -/
def insertTail (se : SaveStateEntry σ) : Except Fault (Registry σ) :=
  if se.compat = none ∨ se.instanceId = 0 then
    .ok ⟨s.handlers ++ [se], s.globalSectionId + 1⟩
  else .error (.assertFailed "!se->compat || se->instance_id == 0")

/-- The entry of `register_savevm_live`, whose alias id is the zero of `g_malloc0`. -/
def liveEntry (idstr : CString) (instanceId versionId : BitVec 32)
    (saveLiveState : Option (σ → Stage → Int × List Byte × σ))
    (saveState : Option (σ → List Byte × σ))
    (loadState : σ → (version : Int) → Taker Fault (Int × σ)) : SaveStateEntry σ :=
  newEntry s path idstr instanceId 0 versionId ⟨saveLiveState, saveState, loadState, none⟩ false

/-- What `vmstate_register` needs of a `VMStateDescription`. -/
structure Vmsd (σ : Type) where
  name : CString
  versionId : BitVec 32
  unmigratable : Bool
  handler : Handler σ

/-- The entry of `vmstate_register`, that is `vmstate_register_with_alias_id` with the
alias id -1. -/
def vmsdEntry (instanceId : BitVec 32) (vmsd : Vmsd σ) : SaveStateEntry σ :=
  newEntry s path vmsd.name instanceId (-1) vmsd.versionId
    ⟨none, none, fun m _ => .done (0, m), some vmsd.handler⟩ vmsd.unmigratable

end

inductive Registration (σ : Type)
  | registerSavevmLive (path : Option CString) (idstr : CString) (instanceId versionId : BitVec 32)
      (saveLiveState : Option (σ → Stage → Int × List Byte × σ))
      (saveState : Option (σ → List Byte × σ))
      (loadState : σ → (version : Int) → Taker Fault (Int × σ))
  | vmstateRegister (path : Option CString) (instanceId : BitVec 32) (vmsd : Vmsd σ)

def Registration.entry : Registration σ → SaveStateEntry σ
  | .registerSavevmLive path idstr instanceId versionId saveLiveState saveState loadState =>
    liveEntry s path idstr instanceId versionId saveLiveState saveState loadState
  | .vmstateRegister path instanceId vmsd => vmsdEntry s path instanceId vmsd

def register (e : Registration σ) : Except Fault (Registry σ) :=
  insertTail s (e.entry s)

/-- `find_se` stops at the first entry that answers. -/
def SaveStateEntry.answers (se : SaveStateEntry σ) (idstr : CString) (instanceId : BitVec 32) :
    Bool :=
  decide (se.idstr = idstr ∧ (instanceId = se.instanceId ∨ instanceId = se.aliasId)) ||
    (se.idstr.strstr idstr && match se.compat with
      | some compat =>
        decide (compat.idstr = idstr ∧ (instanceId = compat.instanceId ∨ instanceId = se.aliasId))
      | none => false)

def findSe (handlers : List (SaveStateEntry σ)) (idstr : CString) (instanceId : BitVec 32) :
    Option (SaveStateEntry σ) :=
  handlers.find? fun se => se.answers idstr instanceId

/-! ## Saving -/

/-- What is written to the file, section by section. -/
inductive Section (σ : Type)
  /-- `QEMU_VM_SECTION_START`, or `QEMU_VM_SECTION_FULL`. -/
  | opening (full : Bool) (se : SaveStateEntry σ) (payload : List Byte)
  /-- `QEMU_VM_SECTION_PART`, or `QEMU_VM_SECTION_END`. -/
  | continued (last : Bool) (se : SaveStateEntry σ) (payload : List Byte)

def openingType (full : Bool) : Byte := if full then 0x04 else 0x01

def continuedType (last : Bool) : Byte := if last then 0x03 else 0x02

def Section.header : Section σ → List Byte
  | .opening full se _ =>
    openingType full :: be32 se.sectionId ++
      BitVec.ofNat 8 se.idstr.chars.length :: se.idstr.chars ++
      be32 se.instanceId ++ be32 se.versionId
  | .continued last se _ => continuedType last :: be32 se.sectionId

def Section.se : Section σ → SaveStateEntry σ
  | .opening _ se _ => se
  | .continued _ se _ => se

def Section.payload : Section σ → List Byte
  | .opening _ _ payload => payload
  | .continued _ _ payload => payload

/-- The sections in order, and the byte that ends them. -/
def sectionBytes : List (Section σ) → List Byte
  | [] => [0x00]
  | sec :: secs => sec.header ++ (sec.payload ++ sectionBytes secs)

/-- One round of `save_live_state` calls. It stops at a return value for which `stop`
says so; that value is returned. -/
def saveLive (stage : Stage) (stop : Int → Bool) (make : SaveStateEntry σ → List Byte → Section σ) :
    List (SaveStateEntry σ) → (ret : Int) → σ → Int × List (Section σ) × σ
  | [], ret, m => (ret, [], m)
  | se :: ses, ret, m =>
    match se.ops.saveLiveState with
    | none => saveLive stage stop make ses ret m
    | some save =>
      let (ret, bs, m) := save m stage
      if stop ret then (ret, [make se bs], m)
      else
        let (ret, secs, m) := saveLive stage stop make ses ret m
        (ret, make se bs :: secs, m)

def savevmStateBegin (m : σ) : Int × List (Section σ) × σ :=
  let (ret, secs, m) := saveLive .start (· < 0) (.opening false) s.handlers 0 m
  (if ret < 0 then ret else 0, secs, m)

/-- Returns 0 when there has to be another round, 1 when it is over. -/
def savevmStateIterate (m : σ) : Int × List (Section σ) × σ :=
  saveLive .part (· ≤ 0) (.continued false) s.handlers 1 m

/-- `vmstate_save` of the entries that have something to save. -/
def saveFull : List (SaveStateEntry σ) → σ → List (Section σ) × σ
  | [], m => ([], m)
  | se :: ses, m =>
    match se.ops.vmsd, se.ops.saveState with
    | none, none => saveFull ses m
    | some vmsd, _ =>
      let (bs, m) := vmsd.save m
      let (secs, m) := saveFull ses m
      (.opening true se bs :: secs, m)
    | none, some saveState =>
      let (bs, m) := saveState m
      let (secs, m) := saveFull ses m
      (.opening true se bs :: secs, m)

def savevmStateComplete (m : σ) : Int × List (Section σ) × σ :=
  let (ret, secs, m) := saveLive .end_ (· < 0) (.continued true) s.handlers 0 m
  if ret < 0 then (ret, secs, m)
  else
    let (more, m) := saveFull s.handlers m
    (0, secs ++ more, m)

/-- Rounds of `iterate`, before each of which the machine runs. -/
def iterations (s : Registry σ) : List (σ → σ) → σ → Except Int (List (Section σ) × σ)
  | [], m => .ok ([], m)
  | runs :: rounds, m =>
    let (ret, secs, m) := savevmStateIterate s (runs m)
    if ret < 0 then .error ret
    else do
      let (more, m) ← iterations s rounds m
      pure (secs ++ more, m)

/-- A machine saved by `begin`, rounds of `iterate` and `complete`. -/
def saved (rounds : List (σ → σ)) (m : σ) : Except Int (List (Section σ)) :=
  let (ret, start, m) := savevmStateBegin s m
  if ret < 0 then .error ret
  else do
    let (parts, m) ← iterations s rounds m
    let (ret, rest, _) := savevmStateComplete s m
    if ret < 0 then .error ret else pure (start ++ parts ++ rest)

/-- `QEMU_VM_FILE_MAGIC` and `QEMU_VM_FILE_VERSION`, and the sections. -/
def streamBytes (secs : List (Section σ)) : List Byte :=
  be32 0x5145564d#32 ++ (be32 3#32 ++ sectionBytes secs)

/-! ## Loading -/

structure LoadStateEntry (σ : Type) where
  se : SaveStateEntry σ
  sectionId : BitVec 32
  versionId : BitVec 32

def vmstateLoad (se : SaveStateEntry σ) (m : σ) (version : Int) : Reader Fault (Int × σ) :=
  match se.ops.vmsd with
  | none => (se.ops.loadState m version).toReader
  | some vmsd => vmsd.load m version

/-- The idstr that was read, up to its first zero. -/
def readIdstr (bs : List Byte) : CString :=
  ⟨cstring bs, fun zero => by simpa [cstring] using List.mem_takeWhile_imp zero⟩

def getByte : Reader Fault Byte := .getByte .done

def getBuffer (size : Nat) : Reader Fault (List Byte) := .getBytes size .done

/-- The loop of `qemu_loadvm_state`. -/
def loadSections (handlers : List (SaveStateEntry σ)) :
    (rounds : Nat) → List (LoadStateEntry σ) → σ → Reader Fault (Int × σ)
  | 0, _, _ => .fault .endlessLoop
  | rounds + 1, les, m => do
    let sectionType ← getByte
    if sectionType = 0x00 then pure (0, m)
    else if sectionType = 0x01 ∨ sectionType = 0x04 then do
      let sectionId ← Reader.getBe32
      let len ← getByte
      let idstr ← getBuffer len.toNat
      let instanceId ← Reader.getBe32
      let versionId ← Reader.getBe32
      match findSe handlers (readIdstr idstr) instanceId with
      | none => pure (einval, m)
      | some se =>
        if se.versionId.ult versionId then pure (einval, m)
        else
          let (ret, m) ← vmstateLoad se m versionId.toInt
          if ret < 0 then pure (ret, m)
          else loadSections handlers rounds (⟨se, sectionId, versionId⟩ :: les) m
    else if sectionType = 0x02 ∨ sectionType = 0x03 then do
      let sectionId ← Reader.getBe32
      match les.find? fun le => le.sectionId = sectionId with
      | none => pure (einval, m)
      | some le =>
        let (ret, m) ← vmstateLoad le.se m le.versionId.toInt
        if ret < 0 then pure (ret, m) else loadSections handlers rounds les m
    else pure (einval, m)

def savevmStateBlocked : Bool := s.handlers.any (·.noMigrate)

def enotsup : Int := -95
def eio : Int := -5

def loadvmState (rounds : Nat) (m : σ) : Reader Fault (Int × σ) :=
  if savevmStateBlocked s then pure (einval, m)
  else do
    let v ← Reader.getBe32
    if v ≠ 0x5145564d#32 then pure (einval, m)
    else
      let v ← Reader.getBe32
      if v ≠ 3#32 then pure (enotsup, m)
      else
        let (ret, m) ← loadSections s.handlers rounds [] m
        .failed fun failed => pure (if ret = 0 ∧ failed then eio else ret, m)

end

end QemuStm32.Savevm
