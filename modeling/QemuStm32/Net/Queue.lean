import Mathlib

/-!
# The packet queue of a network link

`net/queue.c`. A send tries the receiver at once and keeps the packet when the
receiver is not ready. The receiver's handler and the sent callbacks are outside
code that may call the queue again, so the queue is a machine with a stack: each
frame is a call of the queue that waits for outside code to return, and between
two events the queue runs on its own.
-/

namespace QemuStm32.Net

/-- What one send call hands to the queue. `serial` counts the send calls before it
and is not in the source. -/
structure Packet (Client : Type) where
  serial : Nat
  sender : Client
  flags : UInt32
  data : List UInt8
  deriving DecidableEq

/-- A queued packet; `sentCb` is the address of its sent callback, if it has one. -/
structure NetPacket (Client : Type) where
  packet : Packet Client
  sentCb : Option Nat

/-- The packet list and the flag `delivering`. -/
structure NetQueue (Client : Type) where
  packets : List (NetPacket Client)
  delivering : Bool

/-- What the handler is called with: `deliver` gets one buffer, `deliver_iov` several. -/
inductive Buffers
  | flat (data : List UInt8)
  | iov (parts : List (List UInt8))

/-- A call of the queue that waits for outside code. `reply` is what the call returns once its
flush is over: a plain flush returns nothing. -/
inductive Frame (Client : Type)
  | sending (packet : Packet Client) (buffers : Buffers) (sentCb : Option Nat)
  | flushing (packet : NetPacket Client) (reply : Option Int64)
  | notifying (packet : NetPacket Client) (ret : Int32) (reply : Option Int64)

/-- The queue, the calls that wait, and what has happened: the packets handed over, those
a delivery accepted, those a purge freed with the client it was called for, and
the values the finished send calls returned. -/
structure Machine (Client : Type) where
  queue : NetQueue Client
  frames : List (Frame Client)
  sent : List (Packet Client)
  delivered : List (Packet Client)
  purged : List (Client × Packet Client)
  returned : List Int64

variable {Client : Type}

def qemuNewNetQueue : NetQueue Client := ⟨[], false⟩

def newMachine : Machine Client := ⟨qemuNewNetQueue, [], [], [], [], []⟩

/-- The loop of `qemu_net_queue_append_iov` that gathers the parts. -/
def gather (iov : List (List UInt8)) : List UInt8 :=
  iov.foldl (fun data part => data ++ part) []

def Buffers.data : Buffers → List UInt8
  | .flat data => data
  | .iov parts => gather parts

/-- `qemu_net_queue_append` and `qemu_net_queue_append_iov`: both end in an insertion at the
tail. -/
def qemuNetQueueAppend (queue : NetQueue Client) (packet : Packet Client)
    (sentCb : Option Nat) : NetQueue Client :=
  { queue with packets := queue.packets ++ [⟨packet, sentCb⟩] }

variable (m : Machine Client)

/-- The call at hand is over; a send leaves the value it returns. -/
def Machine.finish (reply : Option Int64) : Machine Client :=
  { m with returned := m.returned ++ reply.toList }

/-- `qemu_net_queue_flush` up to its next delivery. -/
def qemuNetQueueFlush (reply : Option Int64) : Machine Client :=
  match m.queue.packets with
  | [] => m.finish reply
  | packet :: rest =>
    { m with
      queue := ⟨rest, true⟩
      frames := .flushing packet reply :: m.frames }

/-- The two send functions up to the delivery; they differ in the handler they call. -/
def sendBuffers (sender : Client) (flags : UInt32) (buffers : Buffers)
    (sentCb : Option Nat) : Machine Client :=
  let packet : Packet Client := ⟨m.sent.length, sender, flags, buffers.data⟩
  let m := { m with sent := m.sent ++ [packet] }
  if m.queue.delivering then
    -- the callback is dropped: nobody is told when this packet goes out
    { m with queue := qemuNetQueueAppend m.queue packet none }.finish
      (some (.ofNat packet.data.length))
  else
    { m with
      queue := { m.queue with delivering := true }
      frames := .sending packet buffers sentCb :: m.frames }

def qemuNetQueueSend (sender : Client) (flags : UInt32)
    (data : List UInt8) (sentCb : Option Nat) : Machine Client :=
  sendBuffers m sender flags (.flat data) sentCb

def qemuNetQueueSendIov (sender : Client) (flags : UInt32)
    (iov : List (List UInt8)) (sentCb : Option Nat) : Machine Client :=
  sendBuffers m sender flags (.iov iov) sentCb

def qemuNetQueuePurge [DecidableEq Client] (m : Machine Client) (client : Client) :
    Machine Client :=
  let (freed, kept) := m.queue.packets.partition fun p => p.packet.sender = client
  { m with
    queue := { m.queue with packets := kept }
    purged := m.purged ++ freed.map fun p => (client, p.packet) }

/-- The rest of a send after the handler returned. -/
def sendReturns (packet : Packet Client) (sentCb : Option Nat) (ret : Int64) : Machine Client :=
  let m := { m with queue := { m.queue with delivering := false } }
  if ret = 0 then
    { m with queue := qemuNetQueueAppend m.queue packet sentCb }.finish (some 0)
  else
    qemuNetQueueFlush { m with delivered := m.delivered ++ [packet] } (some ret)

/-- The rest of the body of the flush loop. The value the handler returned is kept in an `int`. -/
def flushReturns (packet : NetPacket Client) (reply : Option Int64)
    (ret : Int64) : Machine Client :=
  let m :=
    { m with
      queue := { m.queue with delivering := false }
      delivered := m.delivered ++ if ret = 0 then [] else [packet.packet] }
  if ret.toInt32 = 0 then
    { m with queue := { m.queue with packets := packet :: m.queue.packets } }.finish reply
  else if packet.sentCb.isSome then
    { m with frames := .notifying packet ret.toInt32 reply :: m.frames }
  else
    qemuNetQueueFlush m reply

/-- The calls that anyone may make at any moment, and the returns of the outside code. -/
inductive Event (Client : Type)
  | send (sender : Client) (flags : UInt32) (data : List UInt8) (sentCb : Option Nat)
  | sendIov (sender : Client) (flags : UInt32) (iov : List (List UInt8)) (sentCb : Option Nat)
  | flush
  | purge (client : Client)
  | handlerReturns (ret : Int64)
  | callbackReturns

/-- One event. A return that no frame waits for cannot happen. -/
def step [DecidableEq Client] (m : Machine Client) : Event Client → Except Unit (Machine Client)
  | .send sender flags data sentCb => .ok (qemuNetQueueSend m sender flags data sentCb)
  | .sendIov sender flags iov sentCb => .ok (qemuNetQueueSendIov m sender flags iov sentCb)
  | .flush => .ok (qemuNetQueueFlush m none)
  | .purge client => .ok (qemuNetQueuePurge m client)
  | .handlerReturns ret => match m.frames with
    | .sending packet _ sentCb :: frames =>
      .ok (sendReturns { m with frames := frames } packet sentCb ret)
    | .flushing packet reply :: frames =>
      .ok (flushReturns { m with frames := frames } packet reply ret)
    | _ => .error ()
  | .callbackReturns => match m.frames with
    | .notifying _ _ reply :: frames => .ok (qemuNetQueueFlush { m with frames := frames } reply)
    | _ => .error ()

end QemuStm32.Net
