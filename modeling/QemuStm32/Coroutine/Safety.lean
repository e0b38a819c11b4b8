import QemuStm32.Lib.Runs
import QemuStm32.Coroutine.Locks

/-!
# Coroutine locks are exclusive and lose no wake-up

`Flags` ties the fields of a lock to its holders. A lock function that runs again after
a wake-up either takes the lock or finds it taken, so while it runs only its own lock
may be free without a pending waiter: `KeptBut` says that all others are in order.
-/

namespace QemuStm32.Coroutine

open Runs Wakeups
open Function (update update_of_ne update_self)

variable {Co Mutex Rwlock Other : Type}

/-- The lock of the queue is free. A queue outside a lock has none. -/
def World.Free (w : World Co Mutex Rwlock Other) : CoQueue Mutex Rwlock Other → Prop
  | .ofMutex mutex => w.locked mutex = false
  | .ofRwlock lock => w.writer lock = false ∧ w.reader lock = 0
  | .other _ => False

/-- At most one coroutine holds a mutex, a writer holds an rwlock alone, a lock is free when
nobody holds it, and a free lock in whose queue a coroutine sleeps has a woken coroutine
in the unlock queue. -/
structure Safe (w : World Co Mutex Rwlock Other) : Prop where
  mutexAlone : ∀ mutex, (w.holders mutex).length ≤ 1
  mutexFree : ∀ mutex, w.Free (.ofMutex mutex) ↔ w.holders mutex = []
  writerAlone : ∀ lock, w.writers lock ≠ [] →
    (w.writers lock).length = 1 ∧ w.readers lock = []
  rwlockFree : ∀ lock, w.Free (.ofRwlock lock) ↔ w.writers lock = [] ∧ w.readers lock = []
  noneLost : NoneLost Call.queue w.Free w.co

/-- The fields of the locks count their holders. -/
structure Flags (w : World Co Mutex Rwlock Other) : Prop where
  mutex : ∀ mutex, (w.holders mutex).length = (w.locked mutex).toNat
  write : ∀ lock, (w.writers lock).length = (w.writer lock).toNat
  read : ∀ lock, w.reader lock = (w.readers lock).length
  apart : ∀ lock, w.writer lock = true → w.readers lock = []

structure Inv (w : World Co Mutex Rwlock Other) : Prop where
  flags : Flags w
  placed : Placed Call.queue w.co
  noneLost : NoneLost Call.queue w.Free w.co

/-- No wake-up is lost at the locks of other queues. -/
def KeptBut (w : World Co Mutex Rwlock Other) (queue : CoQueue Mutex Rwlock Other) : Prop :=
  NoneLost Call.queue (fun q => w.Free q ∧ q ≠ queue) w.co

/-- The lock functions start from a state in which only their own lock may have lost a
wake-up. -/
structure Ready (w : World Co Mutex Rwlock Other) (c : Co)
    (queue : CoQueue Mutex Rwlock Other) : Prop where
  flags : Flags w
  placed : Placed Call.queue w.co
  kept : KeptBut w queue
  awake : w.co.sleeping c = none

theorem initial_inv : Inv (initial : World Co Mutex Rwlock Other) where
  flags := ⟨fun _ => rfl, fun _ => rfl, fun _ => rfl, fun _ => nofun⟩
  placed := nobody_placed
  noneLost := nobody_noneLost

section
variable {w : World Co Mutex Rwlock Other} {queue : CoQueue Mutex Rwlock Other} {self : Co}
  {mutex : Mutex} {lock : Rwlock}

theorem Inv.keptBut (h : Inv w) (queue : CoQueue Mutex Rwlock Other) : KeptBut w queue :=
  h.noneLost.mono fun _ hq => hq.1

theorem Flags.writer_holders (h : Flags w) (off : w.writer lock = false) : w.writers lock = [] := by
  have count := h.write lock
  rw [off] at count
  exact List.length_eq_zero_iff.mp count

theorem Inv.safe (h : Inv w) : Safe w where
  mutexAlone m := by
    rw [h.flags.mutex]
    exact Bool.toNat_le _
  mutexFree m := by
    rw [← List.length_eq_zero_iff, h.flags.mutex]
    simp [World.Free]
  writerAlone r held := by
    have on : w.writer r = true := by
      by_contra off
      exact held (h.flags.writer_holders (by simpa using off))
    refine ⟨?_, h.flags.apart r on⟩
    rw [h.flags.write, on]
    rfl
  rwlockFree r := by
    rw [← List.length_eq_zero_iff, h.flags.write]
    simp [World.Free, h.flags.read]
  noneLost := h.noneLost

variable {w' : World Co Mutex Rwlock Other}

/-- A coroutine that takes its lock touches no other. -/
theorem Ready.take (h : Ready w self queue) (flags : Flags w') (co : w'.co = w.co)
    (taken : ∀ q, w'.Free q → w.Free q ∧ q ≠ queue) : Inv w' where
  flags := flags
  placed := co ▸ h.placed
  noneLost := co ▸ h.kept.mono taken

/-- The two cases of an unlock by a holder: the only writer, or one of the readers. -/
theorem Flags.rwlock_held (h : Flags w) (held : self ∈ w.writers lock ∨ self ∈ w.readers lock) :
    (w.writer lock = true ∧ w.writers lock = [self]) ∨
      (w.writer lock = false ∧ self ∉ w.writers lock ∧ self ∈ w.readers lock) := by
  cases on : w.writer lock with
  | true =>
    have count := h.write lock
    rw [on] at count
    obtain ⟨c, hc⟩ := List.length_eq_one_iff.mp count
    rw [hc, h.apart lock on] at held
    obtain rfl : self = c := by simpa using held
    exact .inl ⟨rfl, hc⟩
  | false =>
    rw [h.writer_holders on] at held ⊢
    exact .inr ⟨rfl, List.not_mem_nil, by simpa using held⟩

/-- A release of an rwlock can free no other lock. -/
theorem Inv.keptBut_rwlock (h : Inv w) (co : w'.co = w.co) (locked : w'.locked = w.locked)
    (writer : ∀ r, r ≠ lock → w'.writer r = w.writer r)
    (reader : ∀ r, r ≠ lock → w'.reader r = w.reader r) : KeptBut w' (.ofRwlock lock) := by
  unfold KeptBut
  rw [co]
  refine h.noneLost.mono ?_
  rintro (m | r | q) ⟨free, other⟩
  · rw [World.Free, ← locked]
    exact free
  · have ne : r ≠ lock := by simpa using other
    rw [World.Free, ← writer r ne, ← reader r ne]
    exact free
  · exact free

variable [DecidableEq Co] [DecidableEq Mutex] [DecidableEq Rwlock] [DecidableEq Other]

/-- A coroutine that finds its lock taken goes to sleep. -/
theorem wait_inv {call : Call Mutex Rwlock Other} (flags : Flags w)
    (placed : Placed Call.queue w.co) (kept : KeptBut w call.queue)
    (awake : w.co.sleeping self = none) (taken : ¬ w.Free call.queue) :
    Inv (qemuCoQueueWait w self call) := by
  have all : NoneLost Call.queue w.Free w.co := by
    refine kept.mono fun q hq => ⟨hq, ?_⟩
    rintro rfl
    exact taken hq
  exact { flags := { flags with }
          placed := sleep_placed placed awake call
          noneLost := sleep_noneLost placed all awake taken }

omit [DecidableEq Co] in
/-- A release that frees the lock of one queue wakes the first coroutine there. -/
theorem next_inv (flags : Flags w) (placed : Placed Call.queue w.co) (kept : KeptBut w queue) :
    Inv (qemuCoQueueNext w queue).1 where
  flags := { flags with }
  placed := wake_placed placed queue
  noneLost := wake_noneLost placed kept queue fun _ other free => ⟨free, other⟩

omit [DecidableEq Co] in
theorem Inv.wakeEverybody (h : Inv w) (turns : Nat) : Inv (wakeEverybody w queue turns) := by
  induction turns generalizing w with
  | zero => exact h
  | succ turns ih =>
    unfold Coroutine.wakeEverybody
    split
    · exact h
    · exact ih (next_inv h.flags h.placed (h.keptBut queue))

omit [DecidableEq Co] in
theorem wakeEverybody_inv (flags : Flags w) (placed : Placed Call.queue w.co)
    (kept : KeptBut w queue) : Inv (wakeEverybody w queue (w.co.entries queue).length) := by
  cases sleepers : w.co.entries queue with
  | nil =>
    refine ⟨flags, placed, fun q free some => kept q ⟨free, ?_⟩ some⟩
    rintro rfl
    exact some sleepers
  | cons c rest =>
    rw [List.length_cons, wakeEverybody, qemuCoQueueEmpty, sleepers]
    exact (next_inv flags placed kept).wakeEverybody rest.length

/-! ## Taking a lock -/

theorem Ready.mutexLock (h : Ready w self (.ofMutex mutex)) :
    Inv (qemuCoMutexLock w self mutex) := by
  unfold qemuCoMutexLock
  split
  · next on =>
    refine wait_inv h.flags h.placed h.kept h.awake ?_
    simp [Call.queue, World.Free, on]
  next off =>
  refine h.take { h.flags with mutex := ?_ } rfl ?_
  · intro m
    by_cases same : m = mutex
    · subst same
      simp [h.flags.mutex, off]
    · simp [update_of_ne same, h.flags.mutex]
  · rintro (m | r | q) free
    · by_cases same : m = mutex
      · subst same
        simp [World.Free] at free
      · refine ⟨?_, by simpa using same⟩
        simpa [World.Free, update_of_ne same] using free
    · exact ⟨free, nofun⟩
    · exact ⟨free, nofun⟩

theorem Ready.wrlock (h : Ready w self (.ofRwlock lock)) :
    Inv (qemuCoRwlockWrlock w self lock) := by
  unfold qemuCoRwlockWrlock
  split
  · next on =>
    refine wait_inv h.flags h.placed h.kept h.awake ?_
    rintro ⟨off, none⟩
    rcases on with on | on
    · cases on.symm.trans off
    · exact on none
  next off =>
  obtain ⟨off, none⟩ : w.writer lock = false ∧ w.reader lock = 0 := by simpa using off
  have unread : w.readers lock = [] := by
    have count := h.flags.read lock
    rw [none] at count
    exact List.length_eq_zero_iff.mp (by exact_mod_cast count.symm)
  refine h.take { h.flags with write := ?_, apart := ?_ } rfl ?_
  · intro r
    by_cases same : r = lock
    · subst same
      simp [h.flags.writer_holders off]
    · simp [update_of_ne same, h.flags.write]
  · intro r on
    by_cases same : r = lock
    · exact same ▸ unread
    · simp only [update_of_ne same] at on
      exact h.flags.apart r on
  · rintro (m | r | q) free
    · exact ⟨free, nofun⟩
    · by_cases same : r = lock
      · subst same
        simp [World.Free] at free
      · refine ⟨?_, by simpa using same⟩
        simpa [World.Free, update_of_ne same] using free
    · exact ⟨free, nofun⟩

theorem Ready.rdlock (h : Ready w self (.ofRwlock lock)) :
    qemuCoRwlockRdlock w self lock = .error .overflow ∨
      ∃ w', qemuCoRwlockRdlock w self lock = .ok w' ∧ Inv w' := by
  unfold qemuCoRwlockRdlock
  split
  · next on =>
    refine .inr ⟨_, rfl, wait_inv h.flags h.placed h.kept h.awake ?_⟩
    rintro ⟨off, -⟩
    cases on.symm.trans off
  next off =>
  split
  · exact .inl rfl
  refine .inr ⟨_, rfl, h.take { h.flags with read := ?_, apart := ?_ } rfl ?_⟩
  · intro r
    by_cases same : r = lock
    · subst same
      simp [h.flags.read]
    · simp [update_of_ne same, h.flags.read]
  · intro r on
    by_cases same : r = lock
    · exact absurd (same ▸ on) off
    · simp only [update_of_ne same]
      exact h.flags.apart r on
  · rintro (m | r | q) free
    · exact ⟨free, nofun⟩
    · by_cases same : r = lock
      · subst same
        have count := h.flags.read r
        simp only [World.Free, update_self] at free
        omega
      · refine ⟨?_, by simpa using same⟩
        simpa [World.Free, update_of_ne same] using free
    · exact ⟨free, nofun⟩

/-! ## Releasing a lock -/

theorem Inv.mutexUnlock (h : Inv w) (held : self ∈ w.holders mutex) :
    ∃ w', qemuCoMutexUnlock w self mutex = .ok w' ∧ Inv w' := by
  have on : w.locked mutex = true := by
    cases off : w.locked mutex with
    | true => rfl
    | false =>
      have count := h.flags.mutex mutex
      rw [off] at count
      rw [List.length_eq_zero_iff.mp count] at held
      cases held
  have one : w.holders mutex = [self] := by
    have count := h.flags.mutex mutex
    rw [on] at count
    obtain ⟨c, hc⟩ := List.length_eq_one_iff.mp count
    rw [hc] at held ⊢
    rw [List.mem_singleton.mp held]
  rw [qemuCoMutexUnlock, if_pos on]
  refine ⟨_, rfl, next_inv { h.flags with mutex := ?_ } h.placed ?_⟩
  · intro m
    by_cases same : m = mutex
    · subst same
      simp [one]
    · simp [update_of_ne same, h.flags.mutex]
  · refine h.noneLost.mono ?_
    rintro (m | r | q) ⟨free, other⟩
    · have ne : m ≠ mutex := by simpa using other
      simpa [World.Free, update_of_ne ne] using free
    · exact free
    · exact free

theorem Inv.rwUnlock (h : Inv w) (held : self ∈ w.writers lock ∨ self ∈ w.readers lock) :
    ∃ w', qemuCoRwlockUnlock w self lock = .ok w' ∧ Inv w' := by
  unfold qemuCoRwlockUnlock World.drop
  rcases h.flags.rwlock_held held with ⟨on, alone⟩ | ⟨off, notWriter, isReader⟩
  · have isWriter : self ∈ w.writers lock := by simp [alone]
    rw [if_pos isWriter]
    rw [if_pos on]
    refine ⟨_, rfl, wakeEverybody_inv { h.flags with write := ?_, apart := ?_ } h.placed ?_⟩
    · intro r
      by_cases same : r = lock
      · subst same
        simp [alone]
      · simp [update_of_ne same, h.flags.write]
    · intro r on
      by_cases same : r = lock
      · subst same
        simp at on
      · simp only [update_of_ne same] at on
        exact h.flags.apart r on
    · exact h.keptBut_rwlock rfl rfl (fun r ne => update_of_ne ne _ _) fun _ _ => rfl
  · have count := h.flags.read lock
    have some := List.length_pos_of_mem isReader
    have left : update w.reader lock (w.reader lock - 1) lock ≥ 0 := by
      rw [update_self]
      omega
    rw [if_neg notWriter]
    rw [if_neg (by simp [off]), if_pos left]
    have flags : Flags { w with
        readers := update w.readers lock ((w.readers lock).erase self)
        reader := update w.reader lock (w.reader lock - 1) } := by
      refine { h.flags with read := ?_, apart := ?_ }
      · intro r
        by_cases same : r = lock
        · subst same
          simp only [update_self, List.length_erase_of_mem isReader]
          omega
        · simp [update_of_ne same, h.flags.read]
      · intro r on
        by_cases same : r = lock
        · subst same
          cases off.symm.trans on
        · simp only [update_of_ne same]
          exact h.flags.apart r on
    have kept : KeptBut { w with
        readers := update w.readers lock ((w.readers lock).erase self)
        reader := update w.reader lock (w.reader lock - 1) } (.ofRwlock lock) :=
      h.keptBut_rwlock rfl rfl (fun _ _ => rfl) fun r ne => update_of_ne ne _ _
    split
    · exact ⟨_, rfl, next_inv flags h.placed kept⟩
    · next more =>
      refine ⟨_, rfl, flags, h.placed, fun q free sleepers => kept q ⟨free, ?_⟩ sleepers⟩
      rintro rfl
      exact more free.2

end

/-! ## Steps and runs -/

section
variable [DecidableEq Co] [DecidableEq Mutex] [DecidableEq Rwlock] [DecidableEq Other]
  {w : World Co Mutex Rwlock Other}

theorem Inv.bottomHalf (h : Inv w) :
    qemuCoQueueNextBh w = .error .overflow ∨ ∃ w', qemuCoQueueNextBh w = .ok w' ∧ Inv w' := by
  unfold qemuCoQueueNextBh
  split
  · exact .inr ⟨w, rfl, h⟩
  next next rest first =>
  obtain ⟨call, sleeping⟩ := h.placed.woken next (by simp [first])
  rw [sleeping]
  have ready : Ready { w with co := enter w.co next rest } next call.queue :=
    { flags := { h.flags with }
      placed := enter_placed h.placed first
      kept := enter_noneLost h.noneLost first sleeping fun q hq => hq.symm
      awake := update_self _ _ _ }
  cases call with
  | mutexLock mutex => exact .inr ⟨_, rfl, ready.mutexLock⟩
  | rdlock lock => exact ready.rdlock
  | wrlock lock => exact .inr ⟨_, rfl, ready.wrlock⟩
  | wait queue =>
    refine .inr ⟨_, rfl, ready.take ready.flags rfl fun q free => ⟨free, ?_⟩⟩
    rintro rfl
    exact free

/-- A step keeps the invariant or overflows the count of readers; no assertion fails. -/
theorem step_inv (h : Inv w) (e : Event Co Mutex Rwlock Other) (possible : e.possible w = true) :
    step w e = .error .overflow ∨ ∃ w', step w e = .ok w' ∧ Inv w' := by
  have ready : ∀ c q, (w.co.sleeping c).isNone = true → Ready w c q := fun c q awake =>
    ⟨h.flags, h.placed, h.keptBut q, Option.isNone_iff_eq_none.mp awake⟩
  rw [step, if_pos possible]
  cases e with
  | mutexLock self mutex => exact .inr ⟨_, rfl, (ready self _ possible).mutexLock⟩
  | mutexUnlock self mutex =>
    obtain ⟨-, held⟩ := Bool.and_eq_true_iff.mp possible
    exact .inr (h.mutexUnlock (of_decide_eq_true held))
  | rdlock self lock => exact (ready self _ possible).rdlock
  | wrlock self lock => exact .inr ⟨_, rfl, (ready self _ possible).wrlock⟩
  | rwUnlock self lock =>
    obtain ⟨-, held⟩ := Bool.and_eq_true_iff.mp possible
    exact .inr (h.rwUnlock (of_decide_eq_true held))
  | queueWait self queue =>
    have start := ready self (.other queue) possible
    exact .inr ⟨_, rfl, wait_inv start.flags start.placed start.kept start.awake id⟩
  | queueNext queue => exact .inr ⟨_, rfl, next_inv h.flags h.placed (h.keptBut _)⟩
  | bottomHalf => exact h.bottomHalf

/-- Whatever the coroutines do and in whatever order they run, locks are exclusive and no
wake-up is lost. -/
theorem locks_safe (events : List (Event Co Mutex Rwlock Other)) :
    Always step Safe initial events := by
  refine (always_of_keeps ?_ events initial_inv).mono fun _ h => h.safe
  intro w e w' h stepped
  by_cases possible : e.possible w = true
  · rcases step_inv h e possible with overflow | ⟨t, ht, kept⟩
    · cases overflow.symm.trans stepped
    · cases ht.symm.trans stepped
      exact kept
  · rw [step, if_neg possible] at stepped
    cases stepped

end

end QemuStm32.Coroutine
