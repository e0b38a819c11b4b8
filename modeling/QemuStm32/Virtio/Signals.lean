import QemuStm32.Virtio.Ring

/-!
# Interrupts of a queue with event index

`virtqueue_flush` moves the used index, `virtio_notify` compares it with the index at the
last signal and with `used_event`, all modulo 65536.

`no_wakeup_lost`: if the element `used_event` asks for was published since the previous
`virtio_notify`, the next one raises the interrupt.
-/

namespace QemuStm32.Virtio

open Runs Words BitVec

/-- A device with the number of elements published so far, and that number at the previous
`virtio_notify`. -/
structure Traced where
  d : Device
  published : Nat
  notifiedUpTo : Nat

inductive SignalEvent
  | flush (count : BitVec 32)
  | notify
  /-- What the guest, `virtqueue_pop` and `virtqueue_fill` do to the memory and the queue. -/
  | elsewhere (mem : Memory) (lastAvailIdx : BitVec 16) (inuse : Int) (notification : Bool)

section
variable (w : Nat)

def signalStep (t : Traced) : SignalEvent → Except Fault Traced
  | .flush count =>
    .ok { t with d := virtqueueFlush w t.d count, published := t.published + count.toNat }
  | .notify => .ok { t with d := virtioNotify w t.d, notifiedUpTo := t.published }
  | .elsewhere mem lastAvailIdx inuse notification =>
    .ok { t with d := { t.d with
      mem := mem
      vq := { t.d.vq with
        lastAvailIdx := lastAvailIdx, inuse := inuse, notification := notification } } }

/-- At most a whole queue is flushed at once, and only `virtqueue_flush` writes the used index. -/
def Documented (t : Traced) : SignalEvent → Prop
  | .flush count => 1 ≤ count.toNat ∧ count.toNat ≤ 1024
  | .notify => True
  | .elsewhere mem _ _ _ => vringUsedIdx w mem t.d.vq.vring = vringUsedIdx w t.d.mem t.d.vq.vring

instance (t : Traced) : ∀ e, Decidable (Documented w t e)
  | .flush _ => inferInstanceAs (Decidable (_ ∧ _))
  | .notify => inferInstanceAs (Decidable True)
  | .elsewhere _ _ _ _ => inferInstanceAs (Decidable (_ = _))

/-- The element with the used index that `used_event` names was published since the previous
`virtio_notify`. The first element has the index `start`. -/
def Awaited (start : BitVec 16) (t : Traced) : Prop :=
  ∃ k, t.notifiedUpTo ≤ k ∧ k < t.published ∧
    start + BitVec.ofNat 16 k = vringUsedEvent w t.d.mem t.d.vq.vring

def Woken (start : BitVec 16) (t : Traced) : SignalEvent → Prop
  | .notify => Awaited w start t →
    ∃ t', signalStep w t .notify = .ok t' ∧ t'.d.notified = t.d.notified ++ [t.d.vq.vector] ∧
      t'.d.isr = t.d.isr ||| 1
  | _ => True

/-- The used index counts the published elements; a valid `signalled_used` is the index at a
signal not after the last `virtio_notify` and fewer than 2^15 elements ago. -/
structure Window (start : BitVec 16) (t : Traced) : Prop where
  eventIdx : t.d.guestFeatures.getLsbD virtioRingFEventIdx = true
  used : vringUsedIdx w t.d.mem t.d.vq.vring = start + BitVec.ofNat 16 t.published
  marked : t.notifiedUpTo ≤ t.published
  signalled : t.d.vq.signalledUsedValid = true → ∃ k ≤ t.notifiedUpTo,
    t.d.vq.signalledUsed = start + BitVec.ofNat 16 k ∧ t.published < k + 2 ^ 15

end

variable {w : Nat} {start : BitVec 16} {t t' : Traced}

/-- The comparison is exact for windows shorter than the range of the index. -/
theorem vringNeedEvent_of_window {s k n : Nat} (old : s ≤ k) (new : k < n)
    (short : n < s + 2 ^ 15) :
    vringNeedEvent (start + BitVec.ofNat 16 k) (start + BitVec.ofNat 16 n)
      (start + BitVec.ofNat 16 s) = true := by
  have behind : BitVec.ofNat 16 (n - k) - 1 = BitVec.ofNat 16 (n - k - 1) := by
    have apart := index_sub 0 (m := 1) (n := n - k) (by omega)
    simpa using apart
  unfold vringNeedEvent
  rw [decide_eq_true_iff, index_sub start (Nat.le_of_lt new), behind,
    index_sub start (old.trans (Nat.le_of_lt new)), toNat_ofNat, toNat_ofNat]
  omega

/-- `virtqueue_flush` sees when the window gets too long. -/
theorem flush_outdates {s n c : Nat} (before : s ≤ n) (short : n < s + 2 ^ 15) (few : c ≤ 1024)
    (kept : ¬(start + BitVec.ofNat 16 (n + c) - (start + BitVec.ofNat 16 s)).toInt <
      ((start + BitVec.ofNat 16 (n + c) - (start + BitVec.ofNat 16 n)).toNat : Int)) :
    n + c < s + 2 ^ 15 := by
  rw [index_sub start (Nat.le_add_right_of_le before), toInt_eq_toNat_cond, toNat_ofNat] at kept
  split at kept <;> omega

section
variable (h : Window w start t)
include h

theorem Window.flush {count : BitVec 32} (few : count.toNat ≤ 1024) :
    Window w start ⟨virtqueueFlush w t.d count, t.published + count.toNat, t.notifiedUpTo⟩ := by
  have new : start + BitVec.ofNat 16 t.published + count.setWidth 16 =
      start + BitVec.ofNat 16 (t.published + count.toNat) := by
    apply eq_of_toNat_eq
    simp only [toNat_add, toNat_ofNat, toNat_setWidth]
    omega
  refine ⟨h.eventIdx, ?_, Nat.le_add_right_of_le h.marked, fun valid => ?_⟩
  · rw [← new, ← h.used]
    exact loadHalf_storeHalf_same ..
  dsimp only [virtqueueFlush] at valid ⊢
  rw [h.used, new] at valid
  split at valid
  · cases valid
  · rename_i kept
    obtain ⟨k, early, signalled, short⟩ := h.signalled valid
    rw [signalled] at kept
    exact ⟨k, early, signalled, flush_outdates (early.trans h.marked) short few kept⟩

theorem Window.notify : Window w start ⟨virtioNotify w t.d, t.published, t.published⟩ := by
  -- the signal itself changes nothing the window speaks of
  suffices next : Window w start ⟨(vringNotify w t.d).2, t.published, t.published⟩ by
    unfold virtioNotify
    dsimp only
    split
    · exact ⟨next.eventIdx, next.used, next.marked, next.signalled⟩
    · exact next
  unfold vringNotify
  rw [h.eventIdx]
  split
  · refine ⟨h.eventIdx, h.used, le_rfl, fun valid => ?_⟩
    obtain ⟨k, early, rest⟩ := h.signalled valid
    exact ⟨k, early.trans h.marked, rest⟩
  · exact ⟨h.eventIdx, h.used, le_rfl, fun _ => ⟨t.published, le_rfl, h.used,
      Nat.lt_add_of_pos_right (by decide)⟩⟩

theorem Window.raises (awaited : Awaited w start t) : (vringNotify w t.d).1 = true := by
  obtain ⟨k, since, before, event⟩ := awaited
  unfold vringNotify
  rw [h.eventIdx]
  split
  · rfl
  cases valid : t.d.vq.signalledUsedValid with
  | false => rfl
  | true =>
    obtain ⟨s, early, signalled, short⟩ := h.signalled valid
    rw [← event, h.used, signalled]
    exact vringNeedEvent_of_window (early.trans since) before short

theorem Window.step {e : SignalEvent} (documented : Documented w t e)
    (ok : signalStep w t e = .ok t') : Window w start t' := by
  cases e with
  | flush count =>
    cases ok
    exact h.flush documented.2
  | notify =>
    cases ok
    exact h.notify
  | elsewhere mem lastAvailIdx inuse notification =>
    cases ok
    exact ⟨h.eventIdx, documented.trans h.used, h.marked, h.signalled⟩

end

theorem vringNotify_frame (d : Device) : (vringNotify w d).2.isr = d.isr ∧
    (vringNotify w d).2.notified = d.notified ∧ (vringNotify w d).2.vq.vector = d.vq.vector := by
  unfold vringNotify
  split
  · exact ⟨rfl, rfl, rfl⟩
  · split <;> exact ⟨rfl, rfl, rfl⟩

theorem Window.woken (h : Window w start t) (e : SignalEvent) : Woken w start t e := by
  cases e with
  | flush count | elsewhere mem lastAvailIdx inuse notification => trivial
  | notify =>
    intro awaited
    obtain ⟨isr, notified, vector⟩ := vringNotify_frame t.d
    refine ⟨_, rfl, ?_⟩
    dsimp only [virtioNotify]
    rw [if_pos (h.raises awaited), isr, notified, vector]
    exact ⟨rfl, rfl⟩

/-- In every run of a device that has just been reset or loaded. -/
theorem no_wakeup_lost (w : Nat) (d : Device)
    (eventIdx : d.guestFeatures.getLsbD virtioRingFEventIdx = true)
    (reset : d.vq.signalledUsedValid = false) (es : List SignalEvent)
    (documented : StepsMeet (signalStep w) (Documented w) ⟨d, 0, 0⟩ es) :
    StepsMeet (signalStep w) (Woken w (vringUsedIdx w d.mem d.vq.vring)) ⟨d, 0, 0⟩ es := by
  refine StepsMeet.weaken (I := Window w (vringUsedIdx w d.mem d.vq.vring))
    (fun t e t' h => h.step) (fun t e h _ => h.woken e) ⟨eventIdx, ?_, Nat.le_refl 0, ?_⟩ documented
  · simp
  · intro valid
    cases reset.symm.trans valid

/-- A queue of 8 descriptors at address 0 whose used index is 65528, with `used_event` 2. -/
def wrappingQueue : Device where
  mem a := if a = 4098 then 0xf8 else if a = 4099 then 0xff else if a = 148 then 2 else 0
  vq := ⟨virtqueueInit 32 0 8, 0, 0, false, true, 0, 7⟩
  guestFeatures := 1#32 <<< virtioRingFEventIdx
  isr := 0
  notified := []

/-- The element with the index 2 is the eleventh; the index wraps before it is published. -/
theorem no_wakeup_lost_wrapping : let es := [SignalEvent.flush 5, .notify, .flush 10, .notify]
    StepsMeet (signalStep 32) (Documented 32) ⟨wrappingQueue, 0, 0⟩ es ∧
      (∃ t, run (signalStep 32) ⟨wrappingQueue, 0, 0⟩ (es.take 3) = .ok t ∧
        Awaited 32 (vringUsedIdx 32 wrappingQueue.mem wrappingQueue.vq.vring) t) ∧
      StepsMeet (signalStep 32)
        (Woken 32 (vringUsedIdx 32 wrappingQueue.mem wrappingQueue.vq.vring))
        ⟨wrappingQueue, 0, 0⟩ es :=
  ⟨by decide, ⟨_, rfl, 10, by decide, by decide, by decide⟩,
    no_wakeup_lost 32 wrappingQueue (by decide) rfl _ (by decide)⟩

end QemuStm32.Virtio
