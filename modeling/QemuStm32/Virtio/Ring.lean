import QemuStm32.Fault
import QemuStm32.Lib.Runs
import QemuStm32.Lib.Words

/-!
# Virtqueues

The part of `hw/virtio.c` that works on the rings in the guest's memory: `virtqueue_pop`,
`virtqueue_flush`, `virtio_notify` and what they call. `w` is the width of
`target_phys_addr_t`.
-/

namespace QemuStm32.Virtio

open Runs Words

/-- A call of `exit(1)` after an `error_report`, or something no C program may do. -/
inductive Stop
  | exit (message : String) (arguments : List Nat)
  | fault (f : Fault)
  deriving DecidableEq

def virtqueueMaxSize : Nat := 1024

def virtioFNotifyOnEmpty : Nat := 24
def virtioRingFEventIdx : Nat := 29

def vringDescFNext : BitVec 16 := 1
def vringDescFWrite : BitVec 16 := 2
def vringDescFIndirect : BitVec 16 := 4
def vringAvailFNoInterrupt : BitVec 16 := 1

structure VRing where
  num : Nat
  desc : Nat
  avail : Nat
  used : Nat
  deriving DecidableEq

structure VirtQueue where
  vring : VRing
  lastAvailIdx : BitVec 16
  signalledUsed : BitVec 16
  signalledUsedValid : Bool
  notification : Bool
  inuse : Int
  vector : BitVec 16
  deriving DecidableEq

/-- The guest's memory, a queue, the fields of its `VirtIODevice`, and the vectors passed to
`virtio_notify_vector`. -/
structure Device where
  mem : Memory
  vq : VirtQueue
  guestFeatures : BitVec 32
  isr : BitVec 8
  notified : List (BitVec 16)

/-- An address as a `target_phys_addr_t`. -/
def phys (w n : Nat) : Nat := n % 2 ^ w

/-- `virtqueue_init`, with the ring at `pa`. -/
def virtqueueInit (w pa num : Nat) : VRing :=
  let avail := phys w (pa + num * 16)
  let ring := phys w (avail + (4 + 2 * num))
  { num := num, desc := phys w pa, avail := avail, used := phys w (ring + 4095) / 4096 * 4096 }

section
variable (w : Nat)

/-! ## Fields of the rings -/

section
variable (mem : Memory)

section
variable (descPa i : Nat)

def vringDescAddr : Nat :=
  (loadDouble mem (phys w (descPa + 16 * i))).toNat

def vringDescLen : Nat :=
  (loadWord mem (phys w (descPa + 16 * i + 8))).toNat

def vringDescFlags : BitVec 16 :=
  loadHalf mem (phys w (descPa + 16 * i + 12))

def vringDescNext : Nat :=
  (loadHalf mem (phys w (descPa + 16 * i + 14))).toNat

end

variable (vring : VRing)

def vringAvailFlags : BitVec 16 := loadHalf mem vring.avail

def vringAvailIdx : BitVec 16 :=
  loadHalf mem (phys w (vring.avail + 2))

def vringAvailRing (i : Nat) : BitVec 16 :=
  loadHalf mem (phys w (vring.avail + (4 + 2 * i)))

def vringUsedEvent : BitVec 16 :=
  vringAvailRing w mem vring vring.num

def vringUsedIdx : BitVec 16 :=
  loadHalf mem (phys w (vring.used + 2))

def vringUsedIdxSet (val : BitVec 16) : Memory :=
  storeHalf mem (phys w (vring.used + 2)) val

def vringAvailEvent (vq : VirtQueue) (val : BitVec 16) : Memory :=
  if !vq.notification then mem
  else storeHalf mem (phys w (vq.vring.used + (4 + 8 * vq.vring.num))) val

end

/-! ## Publishing -/

section
variable (d : Device)

def virtqueueFlush (count : BitVec 32) : Device :=
  let old := vringUsedIdx w d.mem d.vq.vring
  let new := old + count.setWidth 16
  { d with
    mem := vringUsedIdxSet w d.mem d.vq.vring new
    vq := { d.vq with
      inuse := d.vq.inuse - count.toNat
      signalledUsedValid :=
        if (new - d.vq.signalledUsed).toInt < (new - old).toNat then false
        else d.vq.signalledUsedValid } }

def vringNeedEvent (event new old : BitVec 16) : Bool :=
  decide ((new - event - 1).toNat < (new - old).toNat)

def vringNotify : Bool × Device :=
  if d.guestFeatures.getLsbD virtioFNotifyOnEmpty ∧ d.vq.inuse = 0 ∧
      vringAvailIdx w d.mem d.vq.vring = d.vq.lastAvailIdx then
    (true, d)
  else if !d.guestFeatures.getLsbD virtioRingFEventIdx then
    (vringAvailFlags d.mem d.vq.vring &&& vringAvailFNoInterrupt == 0, d)
  else
    let v := d.vq.signalledUsedValid
    let old := d.vq.signalledUsed
    let new := vringUsedIdx w d.mem d.vq.vring
    (!v || vringNeedEvent (vringUsedEvent w d.mem d.vq.vring) new old,
      { d with vq := { d.vq with signalledUsedValid := true, signalledUsed := new } })

def virtioNotify : Device :=
  let (raise, d) := vringNotify w d
  if raise then { d with isr := d.isr ||| 1, notified := d.notified ++ [d.vq.vector] } else d

/-! ## Fetching -/

/-- An entry of `in_addr` and `in_sg`, or of `out_addr` and `out_sg`. -/
structure Sg where
  addr : Nat
  iovLen : Nat
  iovBase : Option Nat
  deriving DecidableEq

/-- The counts `in_num` and `out_num` are the lengths of the lists. -/
structure VirtQueueElement where
  index : Nat
  inSg : List Sg
  outSg : List Sg
  deriving DecidableEq

/-- `cpu_physical_memory_map`: the buffer, if any, and the length that is mapped. -/
abbrev Map (σ : Type) := σ → (addr len : Nat) → (isWrite : Bool) → (Option Nat × Nat) × σ

def virtqueueNumHeads (idx : BitVec 16) : Except Stop Nat :=
  let numHeads := (vringAvailIdx w d.mem d.vq.vring - idx).toNat
  if numHeads > d.vq.vring.num then
    .error (.exit "Guest moved used index from %u to %u"
      [idx.toNat, (vringAvailIdx w d.mem d.vq.vring).toNat])
  else .ok numHeads

def virtqueueGetHead (idx : BitVec 16) : Except Stop Nat :=
  if d.vq.vring.num = 0 then .error (.fault .divideByZero)
  else
    let head := (vringAvailRing w d.mem d.vq.vring (idx.toNat % d.vq.vring.num)).toNat
    if head ≥ d.vq.vring.num then .error (.exit "Guest says index %u is available" [head])
    else .ok head

def virtqueueNextDesc (mem : Memory) (descPa i max : Nat) : Except Stop Nat :=
  if vringDescFlags w mem descPa i &&& vringDescFNext = 0 then .ok max
  else
    let next := vringDescNext w mem descPa i
    if next ≥ max then .error (.exit "Desc next is %u" [next]) else .ok next

/-- The entry of an array of `VIRTQUEUE_MAX_SIZE` elements behind those that are filled. -/
def put (array : String) (filled : List Sg) (sg : Sg) : Except Stop (List Sg) :=
  if filled.length < virtqueueMaxSize then .ok (filled ++ [sg])
  else .error (.fault (.outOfBounds array filled.length))

/-- The body of the loop of `virtqueue_pop` up to the check for a loop of descriptors. -/
def addDesc (mem : Memory) (descPa i : Nat) (elem : VirtQueueElement) :
    Except Stop VirtQueueElement :=
  let sg : Sg := ⟨phys w (vringDescAddr w mem descPa i), vringDescLen w mem descPa i, none⟩
  if vringDescFlags w mem descPa i &&& vringDescFWrite ≠ 0 then
    if elem.inSg.length ≥ virtqueueMaxSize then
      .error (.exit "Too many write descriptors in indirect table" [])
    else put "in_sg" elem.inSg sg >>= fun inSg => .ok { elem with inSg := inSg }
  else
    if elem.outSg.length ≥ virtqueueMaxSize then
      .error (.exit "Too many read descriptors in indirect table" [])
    else put "out_sg" elem.outSg sg >>= fun outSg => .ok { elem with outSg := outSg }

/-- The loop of `virtqueue_pop`, for some number of rounds. -/
def collect (mem : Memory) (descPa max : Nat) :
    Nat → Nat → VirtQueueElement → Except Stop VirtQueueElement
  | 0, _, _ => .error (.fault .endlessLoop)
  | rounds + 1, i, elem =>
    addDesc w mem descPa i elem >>= fun elem =>
      if elem.inSg.length + elem.outSg.length > max then .error (.exit "Looped descriptor" [])
      else
        virtqueueNextDesc w mem descPa i max >>= fun next =>
          if next = max then .ok elem else collect mem descPa max rounds next elem

def virtqueueMapSg {σ : Type} (map : Map σ) (isWrite : Bool) :
    List Sg → σ → Except Stop (List Sg × σ)
  | [], s => .ok ([], s)
  | sg :: sgs, s =>
    let ((base, len), s) := map s sg.addr (phys w sg.iovLen) isWrite
    if base = none ∨ len ≠ sg.iovLen then
      .error (.exit "virtio: trying to map MMIO memory" [])
    else
      virtqueueMapSg map isWrite sgs s >>= fun (sgs, s) =>
        .ok ({ sg with iovBase := base } :: sgs, s)

/-- The table, its length and the descriptor at which the loop of `virtqueue_pop` starts. -/
def descTable (mem : Memory) (vring : VRing) (head : Nat) : Except Stop (Nat × Nat × Nat) :=
  if vringDescFlags w mem vring.desc head &&& vringDescFIndirect ≠ 0 then
    if vringDescLen w mem vring.desc head % 16 ≠ 0 then
      .error (.exit "Invalid size for indirect buffer table" [])
    else
      .ok (phys w (vringDescAddr w mem vring.desc head), vringDescLen w mem vring.desc head / 16, 0)
  else .ok (vring.desc, vring.num, head)

/-- The memory after `virtqueue_pop` has published how far it has seen the available ring. -/
def availEventSet : Memory :=
  if d.guestFeatures.getLsbD virtioRingFEventIdx then
    vringAvailEvent w d.mem d.vq (vringAvailIdx w d.mem d.vq.vring)
  else d.mem

end

/-- `virtqueue_pop`, with a bound on the rounds of its loop; `none` is the return of 0. -/
def virtqueuePop {σ : Type} (map : Map σ) (rounds : Nat) (d : Device) (s : σ) :
    Except Stop (Option VirtQueueElement × Device × σ) :=
  virtqueueNumHeads w d d.vq.lastAvailIdx >>= fun numHeads =>
    if numHeads = 0 then .ok (none, d, s)
    else
      virtqueueGetHead w d d.vq.lastAvailIdx >>= fun head =>
        let mem := availEventSet w d
        descTable w mem d.vq.vring head >>= fun (descPa, max, i) =>
          collect w mem descPa max rounds i ⟨head, [], []⟩ >>= fun elem =>
            virtqueueMapSg w map true elem.inSg s >>= fun (inSg, s) =>
              virtqueueMapSg w map false elem.outSg s >>= fun (outSg, s) =>
                .ok (some { elem with inSg := inSg, outSg := outSg },
                  { d with
                    mem := mem
                    vq := { d.vq with
                      lastAvailIdx := d.vq.lastAvailIdx + 1
                      inuse := d.vq.inuse + 1 } },
                  s)

end

/-- The distance of two indices. -/
theorem index_sub (start : BitVec 16) {m n : Nat} (le : m ≤ n) :
    start + BitVec.ofNat 16 n - (start + BitVec.ofNat 16 m) = BitVec.ofNat 16 (n - m) := by
  obtain ⟨d, rfl⟩ := Nat.exists_eq_add_of_le le
  rw [BitVec.ofNat_add, Nat.add_sub_cancel_left, ← BitVec.add_assoc,
    BitVec.add_comm _ (.ofNat 16 d), BitVec.add_sub_cancel]

end QemuStm32.Virtio
