import QemuStm32.Lib.Runs
import QemuStm32.Net.Queue

/-!
# The order of the packets of one sender

A packet that finds the receiver ready goes out at once, also while older packets
of its sender wait, and a packet that is refused goes to the tail, also behind
packets its sender handed over during the refused delivery. `Orderly` excludes
both; then the packets of a sender go out in the order of its send calls. That
no packet is lost or delivered twice does not depend on it.
-/

namespace QemuStm32.Net

open Runs List

variable {Client : Type}

/-- The packet a frame is delivering. The frame of a callback holds none: its packet is out. -/
def Frame.packet : Frame Client → Option (Packet Client)
  | .sending packet _ _ => some packet
  | .flushing packet _ => some packet.packet
  | .notifying _ _ _ => none

def Machine.waiting (m : Machine Client) : List (Packet Client) :=
  m.queue.packets.map NetPacket.packet

def Machine.inDelivery (m : Machine Client) : List (Packet Client) :=
  m.frames.filterMap Frame.packet

/-- Every packet handed over waits, is in delivery, was accepted or was freed by a purge of its
sender: one of these, and once. -/
structure Accounted (m : Machine Client) : Prop where
  numbered : m.sent.map Packet.serial = List.range m.sent.length
  conserved :
    (m.waiting ++ m.inDelivery ++ m.delivered ++ m.purged.map Prod.snd).Perm m.sent
  purgedFor : ∀ x ∈ m.purged, x.2.sender = x.1

/-- Packets of one sender, in the order of the send calls. -/
def Before (p q : Packet Client) : Prop := p.sender = q.sender → p.serial < q.serial

instance [DecidableEq Client] (p q : Packet Client) : Decidable (Before p q) :=
  inferInstanceAs (Decidable (_ → _))

/-- The accepted packets of each sender are in the order of its send calls. -/
def InOrder (m : Machine Client) : Prop := m.delivered.Pairwise Before

/-- A delivery from the queue does not return a multiple of `2 ^ 32` other than zero. -/
def Fits (m : Machine Client) : Event Client → Prop
  | .handlerReturns ret =>
    match m.frames with
    | .flushing _ _ :: _ => ret.toInt32 = 0 → ret = 0
    | _ => True
  | _ => True

/-- A packet delivered at once is accepted while no older packet of its sender waits and refused
while no younger one does, and the handler does not flush waiting packets. -/
def Orderly (m : Machine Client) : Event Client → Prop
  | .flush => m.queue.delivering = false ∨ m.queue.packets = []
  | .handlerReturns ret =>
    match m.frames with
    | .sending packet _ _ :: _ =>
      if ret = 0 then ∀ q ∈ m.waiting, Before q packet else ∀ q ∈ m.waiting, Before packet q
    | _ => True
  | _ => True

instance (m : Machine Client) : ∀ e : Event Client, Decidable (Fits m e)
  | .handlerReturns ret =>
    match h : m.frames with
    | .flushing _ _ :: _ =>
      decidable_of_iff (ret.toInt32 = 0 → ret = 0) (by simp only [Fits, h])
    | [] | .sending _ _ _ :: _ | .notifying _ _ _ :: _ => .isTrue (by simp only [Fits, h])
  | .send _ _ _ _ | .sendIov _ _ _ _ | .flush | .purge _ | .callbackReturns => .isTrue trivial

instance [DecidableEq Client] (m : Machine Client) : ∀ e : Event Client, Decidable (Orderly m e)
  | .flush =>
    have : Decidable (m.queue.packets = []) :=
      decidable_of_iff (m.queue.packets.isEmpty = true) List.isEmpty_iff
    inferInstanceAs (Decidable (_ ∨ _))
  | .handlerReturns ret =>
    match h : m.frames with
    | .sending packet _ _ :: _ =>
      decidable_of_iff
        (if ret = 0 then ∀ q ∈ m.waiting, Before q packet else ∀ q ∈ m.waiting, Before packet q)
        (by simp only [Orderly, h])
    | [] | .flushing _ _ :: _ | .notifying _ _ _ :: _ => .isTrue (by simp only [Orderly, h])
  | .send _ _ _ _ | .sendIov _ _ _ _ | .purge _ | .callbackReturns => .isTrue trivial

section
variable {m : Machine Client} {frame : Frame Client} {frames : List (Frame Client)}
  {packet : Packet Client} {sender : Client} {flags : UInt32} {buffers : Buffers}

/-- The packet of the next send call. -/
abbrev Machine.next (m : Machine Client) (sender : Client) (flags : UInt32)
    (buffers : Buffers) : Packet Client :=
  ⟨m.sent.length, sender, flags, buffers.data⟩

theorem inDelivery_cons (top : m.frames = frame :: frames) (holds : frame.packet = some packet) :
    m.inDelivery = packet :: frames.filterMap Frame.packet := by
  rw [Machine.inDelivery, top, filterMap_cons_some holds]

variable {queued : NetPacket Client} {ret : Int32} {reply : Option Int64} {n : Machine Client}
  {packets : List (NetPacket Client)} {sentCb : Option Nat}

theorem inDelivery_callback (top : m.frames = .notifying queued ret reply :: frames) :
    m.inDelivery = frames.filterMap Frame.packet := by
  rw [Machine.inDelivery, top, filterMap_cons_none rfl]

/-! ## The invariant -/

/-- The flag tells whether a delivery runs; it runs on top of callbacks only. -/
def Alone (m : Machine Client) : Prop :=
  if m.queue.delivering then
    ∃ frame frames packet, m.frames = frame :: frames ∧ frame.packet = some packet ∧
      frames.filterMap Frame.packet = []
  else m.inDelivery = []

theorem Alone.idle (h : Alone m) (off : m.queue.delivering = false) : m.inDelivery = [] := by
  rwa [Alone, off] at h

/-- Below a running delivery there is no other. -/
theorem Alone.below (h : Alone m) (top : m.frames = frame :: frames)
    (holds : frame.packet = some packet) : frames.filterMap Frame.packet = [] := by
  unfold Alone at h
  split at h
  · obtain ⟨frame', frames', packet', top', -, rest⟩ := h
    cases top.symm.trans top'
    exact rest
  · rw [inDelivery_cons top holds] at h
    cases h

/-- A callback runs while nothing is delivered. -/
theorem Alone.callback (h : Alone m) (top : m.frames = .notifying queued ret reply :: frames) :
    m.queue.delivering = false := by
  by_contra on
  rw [Alone, if_pos (by simpa using on)] at h
  obtain ⟨frame, rest, packet, same, holds, -⟩ := h
  cases top.symm.trans same
  cases holds

/-- While a delivery runs, it runs on top of callbacks only. A packet taken from the queue is
older than what waits. -/
def Running (m : Machine Client) : Prop :=
  if m.queue.delivering then
    ∃ frame frames packet, m.frames = frame :: frames ∧ frame.packet = some packet ∧
      frames.filterMap Frame.packet = [] ∧
      ((∃ queued reply, frame = .flushing queued reply) → ∀ q ∈ m.waiting, Before packet q)
  else m.inDelivery = []

/-- The invariant of orderly runs: what waits is in order and behind what was accepted. -/
structure Tidy (m : Machine Client) : Prop where
  ordered : InOrder m
  queued : m.waiting.Pairwise Before
  behind : ∀ d ∈ m.delivered, ∀ q ∈ m.waiting ++ m.inDelivery, Before d q
  running : Running m

/-- The invariant of a run that is orderly if `orderly` holds. -/
structure Kept (orderly : Prop) (m : Machine Client) : Prop where
  accounted : Accounted m
  tidy : orderly → Tidy m

variable {orderly : Prop}

theorem newMachine_kept : Kept orderly (newMachine : Machine Client) where
  accounted := ⟨rfl, .refl _, by simp [newMachine]⟩
  tidy _ := ⟨.nil, .nil, by simp [newMachine], rfl⟩

/-- Moving packets between the queue, the frames and the accepted ones. -/
theorem Accounted.move (h : Accounted m) {n : Machine Client} (sent : n.sent = m.sent)
    (purged : n.purged = m.purged)
    (moved : (n.waiting ++ n.inDelivery ++ n.delivered).Perm
      (m.waiting ++ m.inDelivery ++ m.delivered)) : Accounted n where
  numbered := by rw [sent, h.numbered]
  conserved := by
    rw [sent, purged]
    exact (moved.append_right _).trans h.conserved
  purgedFor := by rw [purged]; exact h.purgedFor

/-- A send call adds its packet to those that wait or are in delivery. -/
theorem Accounted.handOver (h : Accounted m) {n : Machine Client}
    (sent : n.sent = m.sent ++ [m.next sender flags buffers])
    (delivered : n.delivered = m.delivered) (purged : n.purged = m.purged)
    (placed : (n.waiting ++ n.inDelivery).Perm
      (m.next sender flags buffers :: (m.waiting ++ m.inDelivery))) : Accounted n where
  numbered := by
    rw [sent, map_append, h.numbered, length_append, length_singleton, range_succ]
    rfl
  conserved := by
    rw [sent, delivered, purged]
    refine ((placed.append_right _).append_right _).trans ?_
    exact (h.conserved.cons _).trans (perm_append_singleton _ _).symm
  purgedFor := by rw [purged]; exact h.purgedFor

theorem Accounted.before_next (h : Accounted m) {q : Packet Client}
    (mem : q ∈ m.waiting ++ m.inDelivery ++ m.delivered) :
    Before q (m.next sender flags buffers) := by
  have numbers : q.serial ∈ m.sent.map Packet.serial :=
    mem_map_of_mem (h.conserved.mem_iff.mp (mem_append_left _ mem))
  rw [h.numbered] at numbers
  exact fun _ => mem_range.mp numbers

theorem Tidy.alone (h : Tidy m) : Alone m := by
  have running := h.running
  unfold Running at running
  unfold Alone
  split at running
  · next on =>
    obtain ⟨frame, frames, packet, top, holds, rest, -⟩ := running
    rw [if_pos on]
    exact ⟨frame, frames, packet, top, holds, rest⟩
  · next off => rwa [if_neg off]

/-- A packet in delivery from the queue is older than what waits. -/
theorem Tidy.older (h : Tidy m) (top : m.frames = .flushing queued reply :: frames) :
    ∀ q ∈ m.waiting, Before queued.packet q := by
  have running := h.running
  unfold Running at running
  split at running
  · obtain ⟨frame, frames', packet, top', holds, -, older⟩ := running
    cases top.symm.trans top'
    cases holds
    exact older ⟨queued, reply, rfl⟩
  · rw [inDelivery_cons top rfl] at running
    cases running

/-! ## What the calls do -/

section
variable (h : Kept orderly m)
include h

theorem Kept.finish (reply : Option Int64) : Kept orderly (m.finish reply) :=
  ⟨{ h.accounted with }, fun o => { h.tidy o with }⟩

/-- A flush takes the oldest packet; in an orderly run nothing else is in delivery then. -/
theorem Kept.flush (off : orderly → m.queue.delivering = false)
    (reply : Option Int64) : Kept orderly (qemuNetQueueFlush m reply) := by
  unfold qemuNetQueueFlush
  split
  · exact h.finish reply
  next packet rest first =>
  have waiting : m.waiting = packet.packet :: rest.map NetPacket.packet := by
    rw [Machine.waiting, first, map_cons]
  refine ⟨h.accounted.move rfl rfl ?_, fun o => ?_⟩
  · rw [waiting]
    exact List.Perm.append_right _ perm_middle
  obtain ⟨ordered, queued, behind, -⟩ := h.tidy o
  rw [waiting] at queued behind
  refine ⟨ordered, queued.of_cons, fun d hd q hq => ?_, ?_⟩
  · exact behind d hd q (perm_middle.mem_iff.mp hq)
  · exact ⟨_, _, _, rfl, rfl, (h.tidy o).alone.idle (off o), fun _ q => rel_of_pairwise_cons queued⟩

/-- A delivery that accepts its packet, in an orderly run the oldest of its sender. -/
theorem Kept.accept (top : m.frames = frame :: frames)
    (holds : frame.packet = some packet) (older : orderly → ∀ q ∈ m.waiting, Before packet q) :
    Kept orderly { m with
                   frames := frames
                   queue := { m.queue with delivering := false }
                   delivered := m.delivered ++ [packet] } := by
  refine ⟨h.accounted.move rfl rfl ?_, fun o => ?_⟩
  · rw [inDelivery_cons top holds]
    show (m.waiting ++ frames.filterMap Frame.packet ++ (m.delivered ++ [packet])).Perm _
    rw [append_assoc, append_assoc, ← append_assoc (frames.filterMap _)]
    exact (perm_append_singleton _ _).append_left _
  · obtain ⟨ordered, queued, behind, -⟩ := h.tidy o
    have rest := (h.tidy o).alone.below top holds
    rw [inDelivery_cons top holds] at behind
    refine ⟨?_, queued, ?_, rest⟩
    · refine pairwise_append.mpr ⟨ordered, pairwise_singleton _ _, fun d hd => ?_⟩
      exact forall_mem_singleton.mpr (behind d hd packet (mem_append_right _ mem_cons_self))
    · show ∀ d ∈ _, ∀ q ∈ m.waiting ++ frames.filterMap Frame.packet, _
      rw [rest, append_nil, forall_mem_append, forall_mem_singleton]
      exact ⟨fun d hd q hq => behind d hd q (mem_append_left _ hq), older o⟩

/-- A refused packet goes back, in an orderly run to a place where its sender's packets stay in
order. -/
theorem Kept.refuse (top : m.frames = frame :: frames) (holds : frame.packet = some packet)
    (back : (packets.map NetPacket.packet).Perm (packet :: m.waiting))
    (queued : orderly → (packets.map NetPacket.packet).Pairwise Before) :
    Kept orderly { m with
                   frames := frames
                   queue := ⟨packets, false⟩ } := by
  refine ⟨h.accounted.move rfl rfl (List.Perm.append_right _ ?_), fun o => ?_⟩
  · rw [inDelivery_cons top holds]
    exact (back.append_right _).trans perm_middle.symm
  obtain ⟨ordered, -, behind, -⟩ := h.tidy o
  have rest := (h.tidy o).alone.below top holds
  rw [inDelivery_cons top holds, rest] at behind
  refine ⟨ordered, queued o, fun d hd q hq => behind d hd q ?_, rest⟩
  change q ∈ packets.map NetPacket.packet ++ frames.filterMap Frame.packet at hq
  rw [rest, append_nil] at hq
  exact (perm_append_singleton _ _).symm.mem_iff.mp (back.mem_iff.mp hq)

theorem Kept.sendReturns (top : m.frames = .sending packet buffers sentCb :: frames) {ret : Int64}
    (inTurn : orderly → Orderly m (.handlerReturns ret)) :
    Kept orderly (sendReturns { m with frames := frames } packet sentCb ret) := by
  simp only [Orderly, top] at inTurn
  unfold Net.sendReturns
  by_cases zero : ret = 0
  · rw [if_pos zero] at inTurn ⊢
    refine Kept.finish (h.refuse top rfl ?_ fun o => ?_) _
    · rw [map_append]
      exact perm_append_singleton _ _
    · rw [map_append]
      refine pairwise_append.mpr ⟨(h.tidy o).queued, pairwise_singleton _ _, fun q hq => ?_⟩
      exact forall_mem_singleton.mpr (inTurn o q hq)
  · rw [if_neg zero] at inTurn ⊢
    exact (h.accept top rfl inTurn).flush (fun _ => rfl) _

theorem Kept.flushReturns (top : m.frames = .flushing queued reply :: frames) {ret : Int64}
    (fits : ret.toInt32 = 0 → ret = 0) :
    Kept orderly (flushReturns { m with frames := frames } queued reply ret) := by
  have older o := (h.tidy o).older top
  unfold Net.flushReturns
  by_cases zero : ret.toInt32 = 0
  · rw [if_pos zero, if_pos (fits zero), append_nil]
    have back : Kept orderly
        { m with frames := frames, queue := ⟨queued :: m.queue.packets, false⟩ } :=
      h.refuse top rfl (.refl _) fun o => pairwise_cons.mpr ⟨older o, (h.tidy o).queued⟩
    exact back.finish _
  · have nonzero : ret ≠ 0 := by
      rintro rfl
      exact zero rfl
    have accepted := h.accept top rfl older
    rw [if_neg zero]
    split
    · exact ⟨{ accepted.accounted with }, fun o => { accepted.tidy o with }⟩
    · exact accepted.flush (fun _ => rfl) _

theorem Kept.sendBuffers (sender : Client) (flags : UInt32) (buffers : Buffers)
    (sentCb : Option Nat) : Kept orderly (sendBuffers m sender flags buffers sentCb) := by
  have older : ∀ q ∈ m.waiting ++ m.inDelivery ++ m.delivered,
      Before q (m.next sender flags buffers) := fun q hq => h.accounted.before_next hq
  unfold Net.sendBuffers
  dsimp only
  split
  · -- a delivery runs: the packet goes to the tail
    next on =>
    have waiting : (qemuNetQueueAppend m.queue (m.next sender flags buffers) none).packets.map
        NetPacket.packet = m.waiting ++ [m.next sender flags buffers] := map_append
    apply Kept.finish
    refine ⟨h.accounted.handOver rfl rfl rfl ?_, fun o => ?_⟩
    · show (map _ _ ++ m.inDelivery).Perm _
      rw [waiting, append_assoc]
      exact perm_middle
    obtain ⟨ordered, queued, behind, running⟩ := h.tidy o
    refine ⟨ordered, ?_, fun d hd q hq => ?_, ?_⟩
    · show (map _ _).Pairwise Before
      rw [waiting]
      refine pairwise_append.mpr ⟨queued, pairwise_singleton _ _, fun q hq => ?_⟩
      exact forall_mem_singleton.mpr (older q (by simp [hq]))
    · change q ∈ map _ _ ++ m.inDelivery at hq
      rw [waiting, append_assoc] at hq
      rcases mem_cons.mp (perm_middle.mem_iff.mp hq) with rfl | hq
      · exact older d (mem_append_right _ hd)
      · exact behind d hd q hq
    · rw [Running, on] at running
      obtain ⟨frame, frames, packet, top, holds, rest, oldest⟩ := running
      rw [Running]
      refine if_pos on ▸ ⟨frame, frames, packet, top, holds, rest, fun flushing => ?_⟩
      show ∀ q ∈ map _ _, _
      rw [waiting, forall_mem_append, forall_mem_singleton]
      exact ⟨oldest flushing, older packet (by simp [inDelivery_cons top holds])⟩
  · next off =>
    refine ⟨h.accounted.handOver rfl rfl rfl perm_middle, fun o => ?_⟩
    obtain ⟨ordered, queued, behind, -⟩ := h.tidy o
    refine ⟨ordered, queued, fun d hd q hq => ?_, _, _, _, rfl, rfl,
      (h.tidy o).alone.idle (by simpa using off), nofun⟩
    rcases mem_cons.mp (perm_middle.mem_iff.mp hq) with rfl | hq
    · exact older d (mem_append_right _ hd)
    · exact behind d hd q hq

end

theorem qemuNetQueuePurge_eq [DecidableEq Client] (m : Machine Client) (client : Client) :
    qemuNetQueuePurge m client =
      { m with
        queue := { m.queue with
                   packets := m.queue.packets.filter fun p => !decide (p.packet.sender = client) }
        purged := m.purged ++ (m.queue.packets.filter fun p =>
          decide (p.packet.sender = client)).map fun p => (client, p.packet) } := by
  rw [qemuNetQueuePurge, partition_eq_filter_filter]
  rfl

theorem Accounted.purge [DecidableEq Client] (h : Accounted m) (client : Client) :
    Accounted (qemuNetQueuePurge m client) := by
  rw [qemuNetQueuePurge_eq]
  let gone : NetPacket Client → Bool := fun p => decide (p.packet.sender = client)
  let freed := (m.queue.packets.filter gone).map NetPacket.packet
  let kept := (m.queue.packets.filter fun p => !gone p).map NetPacket.packet
  have parts : (freed ++ kept).Perm m.waiting := by
    rw [← map_append]
    exact (filter_append_perm gone m.queue.packets).map _
  refine { numbered := h.numbered, conserved := ?_, purgedFor := ?_ }
  · have snd : ((m.queue.packets.filter gone).map fun p => (client, p.packet)).map Prod.snd
        = freed := map_map
    rw [map_append, snd, ← append_assoc]
    refine perm_append_comm.trans (List.Perm.trans ?_ h.conserved)
    rw [← append_assoc, ← append_assoc, ← append_assoc]
    exact ((parts.append_right _).append_right _).append_right _
  · refine forall_mem_append.mpr ⟨h.purgedFor, forall_mem_map.mpr fun p hp => ?_⟩
    exact of_decide_eq_true (mem_filter.mp hp).2

theorem Tidy.purge [DecidableEq Client] (h : Tidy m) (client : Client) :
    Tidy (qemuNetQueuePurge m client) := by
  rw [qemuNetQueuePurge_eq]
  have kept : ((m.queue.packets.filter fun p => !decide (p.packet.sender = client)).map
      NetPacket.packet).Sublist m.waiting := filter_sublist.map _
  obtain ⟨ordered, queued, behind, running⟩ := h
  refine ⟨ordered, queued.sublist kept, fun d hd q hq => ?_, ?_⟩
  · exact behind d hd q ((kept.append_right _).subset hq)
  unfold Running at running ⊢
  split
  · next on =>
    rw [if_pos on] at running
    obtain ⟨frame, frames, packet, top, holds, rest, oldest⟩ := running
    exact ⟨frame, frames, packet, top, holds, rest,
      fun flushing q hq => oldest flushing q (kept.subset hq)⟩
  · next off =>
    rw [if_neg off] at running
    exact running

/-- A callback runs while nothing is delivered. -/
theorem Kept.callbackReturns (h : Kept orderly m)
    (top : m.frames = .notifying queued ret reply :: frames) :
    (orderly → m.queue.delivering = false) ∧ Kept orderly { m with frames := frames } := by
  have off o := (h.tidy o).alone.callback top
  refine ⟨off, h.accounted.move rfl rfl ?_, fun o => ?_⟩
  · rw [inDelivery_callback top]
    exact .refl _
  · have behind := (h.tidy o).behind
    rw [inDelivery_callback top] at behind
    refine { h.tidy o with behind := behind, running := ?_ }
    rw [Running, if_neg (by simp [off o])]
    exact (inDelivery_callback top).symm.trans ((h.tidy o).alone.idle (off o))

/-- Every event keeps the invariant. -/
theorem step_kept [DecidableEq Client] {e : Event Client} (h : Kept orderly m) (fits : Fits m e)
    (inTurn : orderly → Orderly m e) (stepped : step m e = .ok n) : Kept orderly n := by
  cases e with
  | send sender flags data sentCb | sendIov sender flags data sentCb =>
    cases stepped
    exact h.sendBuffers sender flags _ sentCb
  | flush =>
    cases stepped
    by_cases empty : m.queue.packets = []
    · rw [qemuNetQueueFlush, empty]
      exact h.finish none
    · exact h.flush (fun o => (inTurn o).resolve_right empty) none
  | purge client =>
    cases stepped
    exact ⟨h.accounted.purge client, fun o => (h.tidy o).purge client⟩
  | handlerReturns ret =>
    simp only [step] at stepped
    split at stepped
    · next top =>
      cases stepped
      exact h.sendReturns top inTurn
    · next top =>
      cases stepped
      simp only [Fits, top] at fits
      exact h.flushReturns top fits
    · cases stepped
  | callbackReturns =>
    simp only [step] at stepped
    split at stepped
    · next top =>
      cases stepped
      obtain ⟨off, popped⟩ := h.callbackReturns top
      exact popped.flush off _
    · cases stepped

end

/-- In every run every packet is accounted for, and in an orderly run the packets of each sender
are delivered in the order of its send calls. -/
theorem packets_kept_in_order [DecidableEq Client] (events : List (Event Client))
    (fits : StepsMeet step Fits newMachine events) :
    Always step Accounted newMachine events ∧
      (StepsMeet step (fun m e => Fits m e ∧ Orderly m e) newMachine events →
        Always step InOrder newMachine events) := by
  have kept : Always step (Kept False) newMachine events :=
    always_of_stepsMeet (fun _ _ _ h meets => step_kept h meets nofun) newMachine_kept fits
  refine ⟨kept.mono fun _ h => h.accounted, fun orderly => ?_⟩
  have kept : Always step (Kept True) newMachine events :=
    always_of_stepsMeet (fun _ _ _ h meets => step_kept h meets.1 fun _ => meets.2)
      newMachine_kept orderly
  exact kept.mono fun _ h => (h.tidy trivial).ordered

/-- A refused packet with a callback, an answer queued by the handler, and a flush. -/
def answered : List (Event Nat) :=
  [.send 1 0 [0xa] (some 0), .send 2 0 [0xb] none, .handlerReturns 0, .flush,
    .sendIov 1 0 [[0xc], [0xd]] none, .handlerReturns 1, .handlerReturns (-1), .callbackReturns,
    .handlerReturns 1]

theorem answered_in_order :
    StepsMeet step (fun m e => Fits m e ∧ Orderly m e) newMachine answered ∧
      Always step Accounted newMachine answered ∧ Always step InOrder newMachine answered := by
  have orderly : StepsMeet step (fun m e => Fits m e ∧ Orderly m e) newMachine answered := by
    decide +kernel
  obtain ⟨accounted, inOrder⟩ := packets_kept_in_order answered (by decide +kernel)
  exact ⟨orderly, accounted, inOrder orderly⟩

/-- A packet refused, and the next one of the same sender accepted at once. -/
def overtaking : List (Event Nat) :=
  [.send 1 0 [0xa] none, .handlerReturns 0, .send 1 0 [0xb] none, .handlerReturns 1,
    .handlerReturns 1]

/-- The second packet goes out first. -/
theorem later_packet_first :
    ∃ m, run step newMachine overtaking = .ok m ∧
      m.delivered.map Packet.serial = [1, 0] ∧ m.delivered.map Packet.sender = [1, 1] := by
  obtain ⟨m, hm, order⟩ := exists_of_observed (x := run step newMachine overtaking)
    (f := fun m => (m.delivered.map Packet.serial, m.delivered.map Packet.sender))
    (b := ([1, 0], [1, 1])) (by decide +kernel)
  exact ⟨m, hm, congrArg Prod.fst order, congrArg Prod.snd order⟩

end QemuStm32.Net
