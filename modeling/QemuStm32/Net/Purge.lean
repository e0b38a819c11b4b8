import QemuStm32.Net.Order

/-!
# The queue under a handler that calls it

The handler may send, flush and purge. A flush inside the handler enters it once more if a
packet waits (`OneHandler`), and a purge does not reach the packet that is in delivery, so
that its callback can come after the purge (`Timely`).
-/

namespace QemuStm32.Net

open Runs List

variable {Client : Type}

/-- At most one invocation of the handler is running. -/
def OneHandler (m : Machine Client) : Prop := m.inDelivery.length ≤ 1

/-- A flush inside the handler finds no packet. -/
def FlushesOutside (m : Machine Client) : Event Client → Prop
  | .flush => m.queue.delivering = false ∨ m.queue.packets = []
  | _ => True

/-- The packet whose sent callback an event makes the queue call. -/
def Machine.calls (m : Machine Client) : Event Client → Option (Packet Client)
  | .handlerReturns ret =>
    match m.frames with
    | .flushing queued _ :: _ =>
      if ret.toInt32 ≠ 0 ∧ queued.sentCb.isSome then some queued.packet else none
    | _ => none
  | _ => none

/-- The queue with, for each client, the number of packets sent before its last purge. -/
structure Purged (Client : Type) where
  machine : Machine Client
  before : Client → Nat

/-- No callback is called for a packet sent before a purge of its sender. -/
def Timely (s : Purged Client) (e : Event Client) : Prop :=
  ∀ p ∈ s.machine.calls e, s.before p.sender ≤ p.serial

/-- A client is purged while none of its packets is in delivery. -/
def PurgesOutside (s : Purged Client) : Event Client → Prop
  | .purge client => ∀ p ∈ s.machine.inDelivery, p.sender ≠ client
  | _ => True

/-! ## What a step does -/

/-- The packets that may still be delivered. -/
def Machine.pending (m : Machine Client) : List (Packet Client) := m.waiting ++ m.inDelivery

/-- What is pending after a step was pending before it or is sent by it. -/
structure Moves (m n : Machine Client) : Prop where
  sent : m.sent.length ≤ n.sent.length
  pending : ∀ p ∈ n.pending, p ∈ m.pending ∨ p.serial = m.sent.length

/-- Of the handler, a step that is `calm` leaves at most one invocation. -/
structure Leads (calm : Prop) (m n : Machine Client) : Prop extends Moves m n where
  alone : calm → Alone m → Alone n

/-- And it leaves none. -/
structure Ends (calm : Prop) (m n : Machine Client) : Prop extends Moves m n where
  idle : calm → Alone m → n.queue.delivering = false ∧ n.inDelivery = []

section
variable {m n : Machine Client} {frame : Frame Client} {frames : List (Frame Client)}
  {packet : Packet Client} {calm : Prop}

theorem Alone.oneHandler (h : Alone m) : OneHandler m := by
  unfold Alone at h
  unfold OneHandler
  split at h
  · obtain ⟨frame, frames, packet, top, holds, rest⟩ := h
    rw [inDelivery_cons top holds, rest]
    exact Nat.le_refl 1
  · rw [h]
    exact Nat.zero_le 1

theorem Moves.of_subset (sent : n.sent = m.sent) (sub : n.pending ⊆ m.pending) : Moves m n :=
  ⟨sent ▸ le_rfl, fun _ hp => .inl (sub hp)⟩

theorem Ends.leads (h : Ends calm m n) : Leads calm m n := by
  refine ⟨h.toMoves, fun calm alone => ?_⟩
  obtain ⟨off, idle⟩ := h.idle calm alone
  rwa [Alone, off]

theorem Ends.flush (h : Ends calm m n) (reply : Option Int64) :
    Leads calm m (qemuNetQueueFlush n reply) := by
  unfold qemuNetQueueFlush
  split
  · exact { h.leads with }
  · next first rest packets =>
    refine ⟨⟨h.sent, fun p hp => h.pending p ?_⟩, fun calm alone => ?_⟩
    · rw [Machine.pending, Machine.waiting, packets]
      exact perm_middle.subset hp
    · exact ⟨_, _, _, rfl, rfl, (h.idle calm alone).2⟩

/-- A delivery is over, and its packet gone or back in the queue. -/
theorem Ends.popped (top : m.frames = frame :: frames) (holds : frame.packet = some packet)
    (sent : n.sent = m.sent) (off : n.queue.delivering = false)
    (left : n.inDelivery = frames.filterMap Frame.packet)
    (waiting : n.waiting ⊆ packet :: m.waiting) : Ends calm m n := by
  refine ⟨.of_subset sent fun p hp => ?_, fun _ alone => ⟨off, left.trans (alone.below top holds)⟩⟩
  rw [Machine.pending, inDelivery_cons top holds]
  refine perm_middle.symm.subset ?_
  rw [Machine.pending, left] at hp
  obtain hp | hp := mem_append.mp hp
  · exact (sublist_append_left _ _).subset (waiting hp)
  · exact .tail _ (mem_append_right _ hp)

theorem sendBuffers_leads (sender : Client) (flags : UInt32) (buffers : Buffers)
    (sentCb : Option Nat) : Leads calm m (sendBuffers m sender flags buffers sentCb) := by
  have new : ∀ p ∈ m.next sender flags buffers :: m.pending,
      p ∈ m.pending ∨ p.serial = m.sent.length := by
    intro p hp
    obtain rfl | hp := mem_cons.mp hp
    · exact .inr rfl
    · exact .inl hp
  unfold sendBuffers
  dsimp only
  split
  · refine ⟨⟨by simp [Machine.finish], fun p hp => new p ?_⟩, fun _ h => h⟩
    have queued : p ∈ map NetPacket.packet (_ ++ [_]) ++ m.inDelivery := hp
    rw [map_append, append_assoc] at queued
    exact perm_middle.subset queued
  · next off =>
    refine ⟨⟨by simp, fun p hp => new p (perm_middle.subset hp)⟩, fun _ h => ?_⟩
    exact ⟨_, _, _, rfl, rfl, h.idle (by simpa using off)⟩

variable [DecidableEq Client] {e : Event Client}

theorem step_leads (stepped : step m e = .ok n) : Leads (FlushesOutside m e) m n := by
  cases e with
  | send sender flags data sentCb | sendIov sender flags data sentCb =>
    cases stepped
    exact sendBuffers_leads sender flags _ sentCb
  | flush =>
    cases stepped
    by_cases empty : m.queue.packets = []
    · rw [qemuNetQueueFlush, empty]
      exact ⟨.of_subset rfl (Subset.refl _), fun _ h => h⟩
    · refine Ends.flush ⟨.of_subset rfl (Subset.refl _), fun outside h => ?_⟩ none
      have off := outside.resolve_right empty
      exact ⟨off, h.idle off⟩
  | purge client =>
    cases stepped
    rw [qemuNetQueuePurge_eq]
    exact ⟨.of_subset rfl ((filter_sublist.map _).append_right _).subset, fun _ h => h⟩
  | handlerReturns ret =>
    simp only [step] at stepped
    split at stepped
    · next top =>
      cases stepped
      unfold sendReturns
      split
      · refine Ends.leads (.popped top rfl rfl rfl rfl fun p hp => ?_)
        have queued : p ∈ map NetPacket.packet (_ ++ [_]) := hp
        rw [map_append] at queued
        exact (perm_append_singleton _ _).subset queued
      · refine Ends.flush ?_ _
        exact .popped top rfl rfl rfl rfl (subset_cons_self _ _)
    · next top =>
      cases stepped
      unfold flushReturns
      dsimp only
      split
      · exact Ends.leads (.popped top rfl rfl rfl rfl (Subset.refl _))
      · split
        · exact Ends.leads (.popped top rfl rfl rfl rfl (subset_cons_self _ _))
        · refine Ends.flush ?_ _
          exact .popped top rfl rfl rfl rfl (subset_cons_self _ _)
    · cases stepped
  | callbackReturns =>
    simp only [step] at stepped
    split at stepped
    · next top =>
      cases stepped
      have same := inDelivery_callback top
      refine Ends.flush ?_ _
      refine ⟨.of_subset rfl ?_, fun _ h => ?_⟩
      · rw [Machine.pending, Machine.pending, same]
        exact Subset.refl _
      · exact ⟨h.callback top, same.symm.trans (h.idle (h.callback top))⟩
    · cases stepped

/-- A flush inside the handler that finds a packet enters it. -/
theorem flushesOutside_of_oneHandler (h : Alone m)
    (one : ∀ n, step m e = .ok n → OneHandler n) : FlushesOutside m e := by
  cases e with
  | flush =>
    by_contra inside
    obtain ⟨on, some⟩ := not_or.mp inside
    rw [Alone, if_pos (by simpa using on)] at h
    obtain ⟨frame, frames, packet, top, holds, -⟩ := h
    obtain ⟨first, rest, packets⟩ := exists_cons_of_ne_nil some
    have one := one _ rfl
    rw [qemuNetQueueFlush, packets] at one
    have two : (first.packet :: m.inDelivery).length ≤ 1 := one
    rw [inDelivery_cons top holds] at two
    simp at two
  | send | sendIov | purge | handlerReturns | callbackReturns => trivial

/-! ## Callbacks after a purge -/

def purgedStep (s : Purged Client) (e : Event Client) : Except Unit (Purged Client) :=
  step s.machine e >>= fun n => .ok ⟨n, match e with
    | .purge client => Function.update s.before client s.machine.sent.length
    | _ => s.before⟩

/-- What is pending was sent after the last purge of its sender. -/
structure Fresh (s : Purged Client) : Prop where
  before : ∀ client, s.before client ≤ s.machine.sent.length
  pending : ∀ p ∈ s.machine.pending, s.before p.sender ≤ p.serial

theorem step_fresh {s t : Purged Client} (h : Fresh s) (outside : PurgesOutside s e)
    (ht : purgedStep s e = .ok t) : Fresh t := by
  obtain ⟨n, stepped, ht⟩ := bind_ok_iff.mp ht
  obtain rfl := Except.ok.inj ht
  have moves := (step_leads stepped).toMoves
  have kept : Fresh ⟨n, s.before⟩ := by
    refine ⟨fun client => (h.before client).trans moves.sent, fun p hp => ?_⟩
    obtain hp | new := moves.pending p hp
    · exact h.pending p hp
    · exact (h.before _).trans_eq new.symm
  cases e with
  | purge client =>
    cases stepped
    rw [qemuNetQueuePurge_eq] at kept ⊢
    refine ⟨fun other => ?_, fun p hp => ?_⟩
    · dsimp only
      by_cases same : other = client
      · subst same
        rw [Function.update_self]
      · rw [Function.update_of_ne same]
        exact h.before other
    · have other : p.sender ≠ client := by
        obtain hp | hp := mem_append.mp hp
        · obtain ⟨q, hq, rfl⟩ := mem_map.mp hp
          simpa using (mem_filter.mp hq).2
        · exact outside p hp
      dsimp only
      rw [Function.update_of_ne other]
      exact kept.pending p hp
  | send | sendIov | flush | handlerReturns | callbackReturns => exact kept

omit [DecidableEq Client] in
theorem Fresh.timely {s : Purged Client} (h : Fresh s) (e : Event Client) : Timely s e := by
  intro p hp
  unfold Machine.calls at hp
  split at hp
  · split at hp
    · next top =>
      split at hp
      · obtain rfl := Option.some.inj hp
        refine h.pending _ (mem_append_right _ ?_)
        rw [inDelivery_cons top rfl]
        exact mem_cons_self
      · cases hp
    · cases hp
  · cases hp

end

/-- In every run the handler is never entered while it runs precisely when no flush inside the
handler finds a packet; and in every run in which clients are purged while none of their
packets is in delivery, no callback comes after the purge. -/
theorem handler_and_callbacks [DecidableEq Client] (events : List (Event Client)) :
    (Always step OneHandler newMachine events ↔
      StepsMeet step FlushesOutside newMachine events) ∧
    (StepsMeet purgedStep PurgesOutside ⟨newMachine, fun _ => 0⟩ events →
      StepsMeet purgedStep Timely ⟨newMachine, fun _ => 0⟩ events) := by
  constructor
  · refine always_iff_stepsMeet_along (A := Alone) ?_ ?_ rfl (Nat.zero_le 1) (.trivial _ _)
    · intro m e n h _ one stepped
      refine (step_leads stepped).alone (flushesOutside_of_oneHandler h fun t ht => ?_) h
      rwa [← Except.ok.inj (stepped.symm.trans ht)]
    · exact fun m e h _ _ => ⟨fun outside n stepped =>
        ((step_leads stepped).alone outside h).oneHandler,
        flushesOutside_of_oneHandler h⟩
  · refine StepsMeet.weaken (fun s e t => step_fresh) (fun s e h _ => h.timely e) ?_
    exact ⟨fun _ => Nat.le_refl 0, nofun⟩

instance (s : Purged Client) (e : Event Client) : Decidable (Timely s e) :=
  inferInstanceAs (Decidable (∀ p ∈ s.machine.calls e, _))

instance [DecidableEq Client] (s : Purged Client) : ∀ e, Decidable (PurgesOutside s e)
  | .purge client => inferInstanceAs (Decidable (∀ p ∈ s.machine.inDelivery, p.sender ≠ client))
  | .send _ _ _ _ | .sendIov _ _ _ _ | .flush | .handlerReturns _ | .callbackReturns =>
    .isTrue trivial

/-- A refused packet is purged, and a later one of the same sender goes out. -/
def purgedWaiting : List (Event Nat) :=
  [.send 1 0 [0xa] (some 0), .handlerReturns 0, .purge 1, .send 1 0 [0xb] (some 0),
    .handlerReturns 0, .flush, .handlerReturns 1, .callbackReturns]

theorem purgedWaiting_timely : StepsMeet purgedStep Timely ⟨newMachine, fun _ => 0⟩ purgedWaiting :=
  (handler_and_callbacks purgedWaiting).2 (by decide +kernel)

/-- In the first run the handler queues a packet and flushes, and is entered again; in the
second it purges the sender of the packet it is given, whose callback comes afterwards. -/
theorem handler_reentered_and_callback_late :
    (¬ ∀ events : List (Event Nat), Always step OneHandler newMachine events) ∧
      ¬ ∀ events : List (Event Nat),
        StepsMeet purgedStep Timely ⟨newMachine, fun _ => 0⟩ events := by
  constructor
  · intro h
    obtain ⟨m, hm, two⟩ := exists_of_observed (f := fun m => m.inDelivery.length) (b := 2)
      (x := run step newMachine [.send 1 0 [0xa] none, .send 2 0 [0xb] none, .flush])
      (by decide +kernel)
    have one : m.inDelivery.length ≤ 1 := (h _).final hm
    omega
  · intro h
    exact absurd (h [.send 1 0 [0xa] (some 0), .handlerReturns 0, .flush, .purge 1,
      .handlerReturns 1]) (by decide +kernel)

end QemuStm32.Net
