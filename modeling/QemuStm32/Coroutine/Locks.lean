import QemuStm32.Lib.Wakeups

/-!
# Coroutine locks

`qemu-coroutine-lock.c`. Coroutines run one at a time and give up control only where
they yield, so each lock function runs in one piece up to the point where it sleeps.
A woken coroutine goes into `unlock_bh_queue`, from where a bottom half enters it; it
then goes on in the loop of the function it slept in. Any other coroutine may run
between the two.
-/

namespace QemuStm32.Coroutine

open Wakeups Function

/-- The queues: those inside the locks, and others that coroutines wait in directly. -/
inductive CoQueue (Mutex Rwlock Other : Type)
  | ofMutex (mutex : Mutex)
  | ofRwlock (lock : Rwlock)
  | other (queue : Other)
  deriving DecidableEq

/-- The function a sleeping coroutine is in. -/
inductive Call (Mutex Rwlock Other : Type)
  | mutexLock (mutex : Mutex)
  | rdlock (lock : Rwlock)
  | wrlock (lock : Rwlock)
  | wait (queue : Other)

variable {Co Mutex Rwlock Other : Type}

/-- The queue the function waits in. -/
def Call.queue : Call Mutex Rwlock Other → CoQueue Mutex Rwlock Other
  | .mutexLock mutex => .ofMutex mutex
  | .rdlock lock | .wrlock lock => .ofRwlock lock
  | .wait queue => .other queue

/-- The fields of all locks and the sleeping coroutines; `co.pending` is
`unlock_bh_queue`. The last three fields record who has returned from a lock function
and not unlocked since; the source does not keep them. -/
structure World (Co Mutex Rwlock Other : Type) where
  locked : Mutex → Bool
  writer : Rwlock → Bool
  reader : Rwlock → Int
  co : Sleepers Co (CoQueue Mutex Rwlock Other) (Call Mutex Rwlock Other)
  holders : Mutex → List Co
  readers : Rwlock → List Co
  writers : Rwlock → List Co

/-- Why a step does not happen: an assertion fails, a counter overflows, or the coroutine
is not running or holds no lock. -/
inductive Stop
  | assertFailed (condition : String)
  | overflow
  | notNow
  deriving DecidableEq

/-- All locks after `qemu_co_mutex_init` and `qemu_co_rwlock_init`. -/
def initial : World Co Mutex Rwlock Other :=
  ⟨fun _ => false, fun _ => false, fun _ => 0, nobody, fun _ => [], fun _ => [], fun _ => []⟩

def intMax : Int := 2147483647

variable [DecidableEq Co] [DecidableEq Mutex] [DecidableEq Rwlock] [DecidableEq Other]

variable (w : World Co Mutex Rwlock Other)

section
variable (self : Co)

/-- `qemu_co_queue_wait` up to the yield. -/
def qemuCoQueueWait (call : Call Mutex Rwlock Other) : World Co Mutex Rwlock Other :=
  { w with co := sleep Call.queue w.co self call }

def qemuCoQueueNext (queue : CoQueue Mutex Rwlock Other) : World Co Mutex Rwlock Other × Bool :=
  ({ w with co := wake w.co queue }, !(w.co.entries queue).isEmpty)

def qemuCoQueueEmpty (queue : CoQueue Mutex Rwlock Other) : Bool :=
  (w.co.entries queue).isEmpty

/-- The loop runs its test again when the coroutine is entered, so a call of this function is one
turn of it. -/
def qemuCoMutexLock (mutex : Mutex) : World Co Mutex Rwlock Other :=
  if w.locked mutex then
    qemuCoQueueWait w self (.mutexLock mutex)
  else
    { w with
      locked := update w.locked mutex true
      holders := update w.holders mutex (self :: w.holders mutex) }

def qemuCoMutexUnlock (mutex : Mutex) : Except Stop (World Co Mutex Rwlock Other) :=
  if w.locked mutex = true then
    let w :=
      { w with
        locked := update w.locked mutex false
        holders := update w.holders mutex ((w.holders mutex).erase self) }
    .ok (qemuCoQueueNext w (.ofMutex mutex)).1
  else .error (.assertFailed "mutex->locked == true")

def qemuCoRwlockRdlock (lock : Rwlock) : Except Stop (World Co Mutex Rwlock Other) :=
  if w.writer lock then
    .ok (qemuCoQueueWait w self (.rdlock lock))
  else if w.reader lock = intMax then
    .error .overflow
  else
    .ok
      { w with
        reader := update w.reader lock (w.reader lock + 1)
        readers := update w.readers lock (self :: w.readers lock) }

/-- The loop that wakes everybody; each turn takes one coroutine out of the queue. -/
def wakeEverybody (w : World Co Mutex Rwlock Other) (queue : CoQueue Mutex Rwlock Other) :
    Nat → World Co Mutex Rwlock Other
  | 0 => w
  | turns + 1 =>
    if qemuCoQueueEmpty w queue then w
    else wakeEverybody (qemuCoQueueNext w queue).1 queue turns

/-- Who holds what is not in the lock: `unlock` drops the write lock of the coroutine, or else one
of its read locks. -/
def World.drop (lock : Rwlock) : World Co Mutex Rwlock Other :=
  if self ∈ w.writers lock then
    { w with writers := update w.writers lock ((w.writers lock).erase self) }
  else
    { w with readers := update w.readers lock ((w.readers lock).erase self) }

def qemuCoRwlockUnlock (lock : Rwlock) : Except Stop (World Co Mutex Rwlock Other) :=
  let w := w.drop self lock
  if w.writer lock then
    let w := { w with writer := update w.writer lock false }
    .ok (wakeEverybody w (.ofRwlock lock) (w.co.entries (.ofRwlock lock)).length)
  else
    let w := { w with reader := update w.reader lock (w.reader lock - 1) }
    if w.reader lock ≥ 0 then
      if w.reader lock = 0 then .ok (qemuCoQueueNext w (.ofRwlock lock)).1 else .ok w
    else .error (.assertFailed "lock->reader >= 0")

def qemuCoRwlockWrlock (lock : Rwlock) : World Co Mutex Rwlock Other :=
  if w.writer lock ∨ w.reader lock ≠ 0 then
    qemuCoQueueWait w self (.wrlock lock)
  else
    { w with
      writer := update w.writer lock true
      writers := update w.writers lock (self :: w.writers lock) }

/-- An entered coroutine goes on behind the yield. -/
def resume : Call Mutex Rwlock Other → Except Stop (World Co Mutex Rwlock Other)
  | .mutexLock mutex => .ok (qemuCoMutexLock w self mutex)
  | .rdlock lock => qemuCoRwlockRdlock w self lock
  | .wrlock lock => .ok (qemuCoRwlockWrlock w self lock)
  | .wait _ => .ok w

end

/-- One turn of the loop of `qemu_co_queue_next_bh`, up to the next yield of the coroutine. -/
def qemuCoQueueNextBh : Except Stop (World Co Mutex Rwlock Other) :=
  match w.co.pending with
  | [] => .ok w
  | next :: rest =>
    match w.co.sleeping next with
    | some call => resume { w with co := enter w.co next rest } next call
    | none => .error .notNow

/-- What can happen next: a running coroutine calls a lock function, or the bottom half enters a
woken one. -/
inductive Event (Co Mutex Rwlock Other : Type)
  | mutexLock (self : Co) (mutex : Mutex)
  | mutexUnlock (self : Co) (mutex : Mutex)
  | rdlock (self : Co) (lock : Rwlock)
  | wrlock (self : Co) (lock : Rwlock)
  | rwUnlock (self : Co) (lock : Rwlock)
  | queueWait (self : Co) (queue : Other)
  | queueNext (queue : Other)
  | bottomHalf

/-- A sleeping coroutine calls nothing, and only a holder unlocks. -/
def Event.possible : Event Co Mutex Rwlock Other → Bool
  | .mutexLock self _ | .rdlock self _ | .wrlock self _ | .queueWait self _ =>
    (w.co.sleeping self).isNone
  | .mutexUnlock self mutex => (w.co.sleeping self).isNone && self ∈ w.holders mutex
  | .rwUnlock self lock =>
    (w.co.sleeping self).isNone && (self ∈ w.writers lock ∨ self ∈ w.readers lock)
  | .queueNext _ | .bottomHalf => true

def perform : Event Co Mutex Rwlock Other → Except Stop (World Co Mutex Rwlock Other)
  | .mutexLock self mutex => .ok (qemuCoMutexLock w self mutex)
  | .mutexUnlock self mutex => qemuCoMutexUnlock w self mutex
  | .rdlock self lock => qemuCoRwlockRdlock w self lock
  | .wrlock self lock => .ok (qemuCoRwlockWrlock w self lock)
  | .rwUnlock self lock => qemuCoRwlockUnlock w self lock
  | .queueWait self queue => .ok (qemuCoQueueWait w self (.wait queue))
  | .queueNext queue => .ok (qemuCoQueueNext w (.other queue)).1
  | .bottomHalf => qemuCoQueueNextBh w

def step (e : Event Co Mutex Rwlock Other) : Except Stop (World Co Mutex Rwlock Other) :=
  if e.possible w then perform w e else .error .notNow

end QemuStm32.Coroutine
