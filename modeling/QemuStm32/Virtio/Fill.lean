import QemuStm32.Virtio.Ring

/-!
# Unmapping an element

`virtqueue_fill` unmaps the segments of an element that the device is done with. Each call
of `cpu_physical_memory_unmap` says how many bytes of the segment were accessed.

`fill_reports_iff`: the writable segments are reported with their shares of the first `len`
bytes unless a segment that is not empty begins beyond `len`.
-/

namespace QemuStm32.Virtio

open Runs Words

/-- A call of `cpu_physical_memory_unmap`. -/
structure Unmap where
  buffer : Option Nat
  len : Nat
  isWrite : Bool
  accessLen : Nat
  deriving DecidableEq

/-- The first loop of `virtqueue_fill`; `offset` is 32 bits wide as `len` is. -/
def unmapIn (len : BitVec 32) : BitVec 32 → List Sg → List Unmap
  | _, [] => []
  | offset, sg :: sgs =>
    ⟨sg.iovBase, sg.iovLen, true, min (len - offset).toNat sg.iovLen⟩ ::
      unmapIn len (offset + BitVec.ofNat 32 sg.iovLen) sgs

def unmapOut (sg : Sg) : Unmap := ⟨sg.iovBase, sg.iovLen, false, sg.iovLen⟩

/-- `virtqueue_fill`: the segments it unmaps, and the device with the entry of the used ring. -/
def virtqueueFill (w : Nat) (d : Device) (elem : VirtQueueElement) (len idx : BitVec 32) :
    List Unmap × Except Fault Device :=
  (unmapIn len 0 elem.inSg ++ elem.outSg.map unmapOut,
    if d.vq.vring.num = 0 then .error .divideByZero
    else
      let idx := (idx + (vringUsedIdx w d.mem d.vq.vring).setWidth 32).toNat % d.vq.vring.num
      let pa := d.vq.vring.used + (4 + 8 * idx)
      let mem := storeWord d.mem (phys w pa) (BitVec.ofNat 32 elem.index)
      .ok { d with mem := storeWord mem (phys w (pa + 4)) len })

/-- What is to be reported: each segment once, with its share of the first `len` bytes. -/
def shares : Nat → List Sg → List Unmap
  | _, [] => []
  | len, sg :: sgs =>
    ⟨sg.iovBase, sg.iovLen, true, min len sg.iovLen⟩ :: shares (len - sg.iovLen) sgs

/-- A segment that begins beyond `len` is empty, or begins a multiple of 2^32 beyond it. -/
def NoneBeyond (len : Nat) : Nat → List Sg → Prop
  | _, [] => True
  | offset, sg :: sgs =>
    (len < offset → sg.iovLen = 0 ∨ offset % 2 ^ 32 = len) ∧ NoneBeyond len (offset + sg.iovLen) sgs

theorem unmapIn_eq_iff (len : BitVec 32) (offset : Nat) (sgs : List Sg) :
    unmapIn len (BitVec.ofNat 32 offset) sgs = shares (len.toNat - offset) sgs ↔
      NoneBeyond len.toNat offset sgs := by
  induction sgs generalizing offset with
  | nil => exact iff_of_true rfl trivial
  | cons sg sgs ih =>
    have here : min (len - BitVec.ofNat 32 offset).toNat sg.iovLen =
        min (len.toNat - offset) sg.iovLen ↔
        (len.toNat < offset → sg.iovLen = 0 ∨ offset % 2 ^ 32 = len.toNat) := by
      rw [BitVec.toNat_sub, BitVec.toNat_ofNat]
      omega
    rw [unmapIn, shares, NoneBeyond, ← ih, ← here, BitVec.ofNat_add, Nat.sub_sub]
    simp

/-- The segments are reported as they are to be exactly when none that is not empty begins
beyond `len`. -/
theorem fill_reports_iff (w : Nat) (d : Device) (elem : VirtQueueElement) (len idx : BitVec 32) :
    (virtqueueFill w d elem len idx).1 = shares len.toNat elem.inSg ++ elem.outSg.map unmapOut ↔
      NoneBeyond len.toNat 0 elem.inSg := by
  rw [virtqueueFill, List.append_left_inj]
  exact unmapIn_eq_iff len 0 elem.inSg

/-- Four bytes are written to the first of three segments of eight: the others are reported as
written whole. -/
theorem segment_beyond_reported :
    ¬ ∀ (w : Nat) (d : Device) (elem : VirtQueueElement) (len idx : BitVec 32),
      (virtqueueFill w d elem len idx).1 =
        shares len.toNat elem.inSg ++ elem.outSg.map unmapOut := by
  intro h
  have all := h 64 ⟨fun _ => 0, ⟨⟨1, 0, 0, 0⟩, 0, 0, false, false, 1, 0⟩, 0, 0, []⟩
    ⟨0, [⟨0, 8, some 0⟩, ⟨8, 8, some 8⟩, ⟨16, 8, some 16⟩], []⟩ 4 0
  revert all
  decide

end QemuStm32.Virtio
