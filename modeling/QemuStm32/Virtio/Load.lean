import QemuStm32.Lib.Readers
import QemuStm32.Virtio.Ring

/-!
# Loading a virtio device

`virtio_load` of `hw/virtio.c`, on a stream of any bytes. The length of the configuration, the
number of queues and their sizes are taken from the stream as they are.

* `virtioLoad_safe_iff`: the streams that are loaded without writing outside the configuration
  or the array of queues and that, if they are accepted, leave queues a guest could have set up.
-/

namespace QemuStm32.Virtio

open Words Readers

def virtioPciQueueMax : Nat := 64

structure PlacedQueue extends VirtQueue where
  pa : Nat

/-- `config` is as long as the memory that was allocated for it. -/
structure VirtIODevice where
  status : BitVec 8
  isr : BitVec 8
  queueSel : BitVec 16
  guestFeatures : BitVec 32
  configLen : Nat
  config : List Byte
  vq : Nat → PlacedQueue

/-- What the transport reads of its own, with the return values, and what it offers. -/
structure Binding where
  loadConfig : Reader Empty Int
  loadQueue : (n : Nat) → Reader Empty Int
  getFeatures : BitVec 32

/-- What the stream has for a queue. -/
structure QueueRecord where
  num : Nat
  pa : Nat
  lastAvailIdx : BitVec 16

/-- A read that cannot fault: its value and the rest of the stream. -/
def take {α : Type} (p : Reader Empty α) (s : Stream) : α × Stream :=
  match p.run s with
  | .ok r => r

def getBe16 : Reader Empty (BitVec 16) := do
  let b0 ← .getByte .done
  let b1 ← .getByte .done
  pure (b0 ++ b1)

def readHeader : Reader Empty (BitVec 8 × BitVec 8 × BitVec 16 × BitVec 32) := do
  let status ← .getByte .done
  let isr ← .getByte .done
  let queueSel ← getBe16
  let features ← Reader.getBe32
  pure (status, isr, queueSel, features)

/-- `qemu_get_buffer` takes an `int`. -/
def readConfig : Reader Empty (Nat × List Byte) := do
  let configLen ← Reader.getBe32
  let config ← .getBytes configLen.toInt.toNat .done
  pure (configLen.toNat, config)

section
variable (w : Nat)

def readQueue : Reader Empty QueueRecord := do
  let num ← Reader.getBe32
  let high ← Reader.getBe32
  let low ← Reader.getBe32
  let lastAvailIdx ← getBe16
  pure ⟨num.toNat, phys w (high ++ low).toNat, lastAvailIdx⟩

/-- The queue with what was read; a ring is where `pa` says. -/
def PlacedQueue.load (q : PlacedQueue) (r : QueueRecord) : PlacedQueue :=
  { q with
    vring := if r.pa = 0 then { q.vring with num := r.num } else virtqueueInit w r.pa r.num
    pa := r.pa
    lastAvailIdx := r.lastAvailIdx
    signalledUsedValid := false
    notification := true }

variable (mem : Memory)

/-- The checks of the indices. -/
def QueueRecord.consistent (r : QueueRecord) : Bool :=
  if r.pa ≠ 0 then
    decide ((vringAvailIdx w mem (virtqueueInit w r.pa r.num) - r.lastAvailIdx).toNat ≤ r.num)
  else r.lastAvailIdx == 0

variable (b : Binding)

def loadQueues : (left i : Nat) → VirtIODevice → Stream →
    Except Fault (Int × VirtIODevice × Stream)
  | 0, _, d, s => .ok (0, d, s)
  | left + 1, i, d, s =>
    if i < virtioPciQueueMax then
      let (r, s) := take (readQueue w) s
      let d := { d with vq := Function.update d.vq i ((d.vq i).load w r) }
      if r.consistent w mem then
        let (ret, s) := take (b.loadQueue i) s
        if ret ≠ 0 then .ok (ret, d, s) else loadQueues left (i + 1) d s
      else .ok (-1, d, s)
    else .error (.outOfBounds "vq" i)

/-- `virtio_set_features`: what is left of the features, and whether some were not supported. -/
def setFeatures (val : BitVec 32) : BitVec 32 × Bool :=
  (val &&& b.getFeatures, val &&& ~~~b.getFeatures != 0)

def virtioLoad (d : VirtIODevice) (s : Stream) : Except Fault (Int × VirtIODevice × Stream) :=
  let (ret, s) := take b.loadConfig s
  if ret ≠ 0 then .ok (ret, d, s)
  else
    let ((status, isr, queueSel, features), s) := take readHeader s
    let (guestFeatures, bad) := setFeatures b features
    let d := { d with
      status := status, isr := isr, queueSel := queueSel, guestFeatures := guestFeatures }
    if bad then .ok (-1, d, s)
    else
      let ((configLen, bytes), s) := take readConfig s
      if bytes.length ≤ d.config.length then
        let d := { d with
          configLen := configLen, config := bytes ++ d.config.drop bytes.length }
        let (num, s) := take Reader.getBe32 s
        loadQueues w mem b num.toInt.toNat 0 d s
      else .error (.outOfBounds "config" d.config.length)

/-! ## What a stream may say -/

/-- The records of `n` queues, with what the transport returns for each. -/
def records : (n i : Nat) → Stream → List (QueueRecord × Int)
  | 0, _, _ => []
  | n + 1, i, s =>
    let (r, s) := take (readQueue w) s
    let (ret, s) := take (b.loadQueue i) s
    (r, ret) :: records n (i + 1) s

/-- A record at which the loop goes on. -/
def Accepted (r : QueueRecord × Int) : Prop := r.1.consistent w mem = true ∧ r.2 = 0

/-- A size that `virtio_add_queue` allows, and no more heads than that. A queue without a
ring has none. -/
def PlacedQueue.Valid (q : PlacedQueue) : Prop :=
  q.vring.num ≤ virtqueueMaxSize ∧
    (q.pa ≠ 0 → (vringAvailIdx w mem q.vring - q.lastAvailIdx).toNat ≤ q.vring.num)

/-- No write was outside, and what was accepted is valid. -/
def LoadsSafely (r : Except Fault (Int × VirtIODevice × Stream)) : Prop :=
  ∃ ret d s, r = .ok (ret, d, s) ∧
    (ret = 0 → ∀ i < virtioPciQueueMax, (d.vq i).Valid w mem)

/-- One of the first queues is refused, or there are no more queues than places, none of them
is too large, and those that are not in the stream are valid. -/
def QueuesFit (n : Nat) (d : VirtIODevice) (s : Stream) : Prop :=
  (∃ r ∈ (records w b n 0 s).take virtioPciQueueMax, ¬ Accepted w mem r) ∨
    n ≤ virtioPciQueueMax ∧ (∀ r ∈ records w b n 0 s, r.1.num ≤ virtqueueMaxSize) ∧
      ∀ i < virtioPciQueueMax, n ≤ i → (d.vq i).Valid w mem

/-- The transport or the features are refused, or the configuration is not longer than that
of the device and the queues fit. -/
def Fits (d : VirtIODevice) (s : Stream) : Prop :=
  let (ret, s) := take b.loadConfig s
  let ((_, _, _, features), s) := take readHeader s
  let ((_, bytes), s) := take readConfig s
  let (num, s) := take Reader.getBe32 s
  ret ≠ 0 ∨ (setFeatures b features).2 = true ∨
    bytes.length ≤ d.config.length ∧ QueuesFit w mem b num.toInt.toNat d s

variable {w mem b} {d : VirtIODevice} {s : Stream}

theorem not_loadsSafely {r : Except Fault (Int × VirtIODevice × Stream)} (h : r.isOk = false) :
    ¬ LoadsSafely w mem r := by
  rintro ⟨_, _, _, rfl, -⟩
  cases h

theorem loadsSafely_ok (ret : Int) :
    LoadsSafely w mem (.ok (ret, d, s)) ↔
      (ret = 0 → ∀ i < virtioPciQueueMax, (d.vq i).Valid w mem) := by
  constructor
  · rintro ⟨_, _, _, h, valid⟩
    cases h
    exact valid
  · exact fun valid => ⟨ret, d, s, rfl, valid⟩

theorem load_valid_iff {r : QueueRecord} (ok : r.consistent w mem = true) (q : PlacedQueue) :
    (q.load w r).Valid w mem ↔ r.num ≤ virtqueueMaxSize := by
  unfold QueueRecord.consistent at ok
  by_cases none : r.pa = 0
  · simp [PlacedQueue.load, PlacedQueue.Valid, none]
  · rw [if_pos none, decide_eq_true_eq] at ok
    simp [PlacedQueue.load, PlacedQueue.Valid, none, virtqueueInit] at ok ⊢
    exact fun _ => ok

/-- The loop from queue `i` on, where those before it were loaded. -/
theorem loadQueues_safe_iff (n : Nat) {i : Nat} (le : i ≤ virtioPciQueueMax) :
    LoadsSafely w mem (loadQueues w mem b n i d s) ↔
      (∃ r ∈ (records w b n i s).take (virtioPciQueueMax - i), ¬ Accepted w mem r) ∨
        i + n ≤ virtioPciQueueMax ∧ (∀ r ∈ records w b n i s, r.1.num ≤ virtqueueMaxSize) ∧
          ∀ j < virtioPciQueueMax, j < i ∨ i + n ≤ j → (d.vq j).Valid w mem := by
  induction n generalizing i d s with
  | zero =>
    rw [loadQueues, loadsSafely_ok]
    simp [records, le, Nat.lt_or_ge]
  | succ n ih =>
    rw [loadQueues]
    split
    · next inside =>
      obtain ⟨k, room⟩ : ∃ k, virtioPciQueueMax - i = k + 1 := ⟨_, (Nat.succ_pred (by omega)).symm⟩
      rw [records, room, List.take_succ_cons]
      dsimp only
      generalize take (readQueue w) s = read
      obtain ⟨r, s⟩ := read
      generalize take (b.loadQueue i) s = loaded
      obtain ⟨ret, s⟩ := loaded
      by_cases accepted : Accepted w mem (r, ret)
      · -- the queue is in its place, and valid unless it is too large
        have own := load_valid_iff accepted.1 (d.vq i)
        have rest : virtioPciQueueMax - (i + 1) = k := by omega
        rw [if_pos accepted.1, if_neg (not_not.mpr accepted.2), ih inside, rest]
        simp only [List.mem_cons, exists_eq_or_imp, forall_eq_or_imp, accepted, not_true_eq_false,
          false_or, ← own]
        refine or_congr Iff.rfl ⟨?_, ?_⟩
        · rintro ⟨few, small, valid⟩
          refine ⟨by omega, ⟨?_, small⟩, fun j lt outside => ?_⟩
          · simpa using valid i inside (.inl (Nat.lt_succ_self i))
          · have same := valid j lt (by omega)
            rwa [Function.update_of_ne (by omega)] at same
        · rintro ⟨few, ⟨here, small⟩, valid⟩
          refine ⟨by omega, small, fun j lt outside => ?_⟩
          by_cases self : j = i
          · rwa [self, Function.update_self]
          · rw [Function.update_of_ne self]
            exact valid j lt (by omega)
      · refine iff_of_true ?_ (.inl ⟨_, List.mem_cons_self, accepted⟩)
        split
        · next ok =>
          have refused : ret ≠ 0 := fun zero => accepted ⟨ok, zero⟩
          rw [if_pos refused, loadsSafely_ok]
          exact fun zero => absurd zero refused
        · exact (loadsSafely_ok _).mpr fun zero => absurd zero (by decide)
    · refine iff_of_false (not_loadsSafely rfl) ?_
      rintro (⟨r, mem, -⟩ | ⟨few, -⟩)
      · rw [Nat.sub_eq_zero_of_le (by omega)] at mem
        cases mem
      · omega

theorem virtioLoad_safe_iff : LoadsSafely w mem (virtioLoad w mem b d s) ↔ Fits w mem b d s := by
  unfold virtioLoad Fits
  dsimp only
  split
  · next refused =>
    rw [loadsSafely_ok]
    exact iff_of_true (fun zero => absurd zero refused) (.inl refused)
  next ready =>
  rw [or_iff_right ready]
  split
  · next bad =>
    rw [loadsSafely_ok]
    exact iff_of_true (fun zero => absurd zero (by decide)) (.inl bad)
  · next supported =>
    rw [or_iff_right supported]
    split
    · next fits =>
      rw [loadQueues_safe_iff _ (Nat.zero_le _), and_iff_right fits]
      simp [QueuesFit]
    · next long => exact iff_of_false (not_loadsSafely rfl) fun fits => long fits.1

/-- A transport that reads nothing, and a device without queues that are set up. -/
def plainBinding : Binding := ⟨pure 0, fun _ => pure 0, 0⟩

def idleDevice : VirtIODevice :=
  ⟨0, 0, 0, 0, 4, [0, 0, 0, 0], fun _ => ⟨⟨⟨0, 0, 0, 0⟩, 0, 0, false, true, 0, 0xffff⟩, 0⟩⟩

/-- What is loaded from a stream of words behind the header; zeros are read behind its end. -/
def loadWords (words : List (BitVec 32)) : Except Fault (Int × VirtIODevice × Stream) :=
  virtioLoad 32 (fun _ => 0) plainBinding idleDevice ⟨([0, 0] ++ words).flatMap be32, 0, false⟩

/-- A configuration that is too long, a queue too many, and a queue that is too large. -/
theorem loadWords_unsafe :
    ¬ LoadsSafely 32 (fun _ => 0) (loadWords [5, 0, 0]) ∧
      ¬ LoadsSafely 32 (fun _ => 0) (loadWords [0, 65]) ∧
      ¬ LoadsSafely 32 (fun _ => 0) (loadWords [0, 1, 2048]) := by
  have long : (loadWords [5, 0, 0]).isOk = false := by decide +kernel
  have many : (loadWords [0, 65]).isOk = false := by decide +kernel
  have large : (loadWords [0, 1, 2048]).map (fun r => (r.1, (r.2.1.vq 0).vring.num)) =
      .ok (0, 2048) := rfl
  refine ⟨not_loadsSafely long, not_loadsSafely many, ?_⟩
  rintro ⟨ret, d, s, ran, valid⟩
  rw [ran] at large
  simp only [Except.map, Except.ok.injEq, Prod.mk.injEq] at large
  have small := (valid large.1 0 (by decide)).1
  rw [large.2] at small
  exact absurd small (by decide)

end

end QemuStm32.Virtio
