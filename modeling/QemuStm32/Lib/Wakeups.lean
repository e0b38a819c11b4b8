import Mathlib

/-!
# Sleepers and deferred wake-ups

Threads sleep in queues. A wake-up takes the first thread of a queue and puts it
into one list of pending threads, from which they are entered one by one later.
A sleeping thread remembers the call it sleeps in, and a call sleeps in one
queue.

* `Placed`: every queued or pending thread sleeps, in one place and once;
* `NoneLost`: a queue whose lock is free and in which threads sleep has a thread
  among the pending ones.
-/

namespace QemuStm32.Wakeups

open Function List

/-- `entries` are the queues, `pending` the threads that were woken and have not run since,
`sleeping` the calls of both. -/
structure Sleepers (Thread Queue Call : Type*) where
  entries : Queue → List Thread
  pending : List Thread
  sleeping : Thread → Option Call

variable {Thread Queue Call : Type*}

def nobody : Sleepers Thread Queue Call := ⟨fun _ => [], [], fun _ => none⟩

section
variable [DecidableEq Thread] [DecidableEq Queue]

/-- The thread goes to sleep at the tail of the queue of its call. -/
def sleep (queue : Call → Queue) (s : Sleepers Thread Queue Call) (c : Thread) (call : Call) :
    Sleepers Thread Queue Call :=
  { s with
    entries := Function.update s.entries (queue call) (s.entries (queue call) ++ [c])
    sleeping := Function.update s.sleeping c (some call) }

/-- The first thread of a queue becomes pending. -/
def wake (s : Sleepers Thread Queue Call) (q : Queue) : Sleepers Thread Queue Call :=
  match s.entries q with
  | [] => s
  | c :: rest =>
    { s with
      entries := Function.update s.entries q rest
      pending := s.pending ++ [c] }

/-- A pending thread runs again; `rest` are the others. -/
def enter (s : Sleepers Thread Queue Call) (c : Thread) (rest : List Thread) :
    Sleepers Thread Queue Call :=
  { s with
    pending := rest
    sleeping := Function.update s.sleeping c none }

end

variable (queue : Call → Queue)

structure Placed (s : Sleepers Thread Queue Call) : Prop where
  queued : ∀ q, ∀ c ∈ s.entries q, ∃ call, s.sleeping c = some call ∧ queue call = q
  woken : ∀ c ∈ s.pending, ∃ call, s.sleeping c = some call
  once : ∀ q, (s.entries q ++ s.pending).Nodup

/-- A thread of the queue is among the pending ones. -/
def Woken (s : Sleepers Thread Queue Call) (q : Queue) : Prop :=
  ∃ c ∈ s.pending, ∃ call, s.sleeping c = some call ∧ queue call = q

def NoneLost (free : Queue → Prop) (s : Sleepers Thread Queue Call) : Prop :=
  ∀ q, free q → s.entries q ≠ [] → Woken queue s q

variable {queue} {s : Sleepers Thread Queue Call} {c : Thread} {call : Call}
  {free free' : Queue → Prop}

theorem nobody_placed : Placed queue (nobody : Sleepers Thread Queue Call) where
  queued := fun _ _ h => nomatch h
  woken := fun _ h => nomatch h
  once := fun _ => .nil

theorem nobody_noneLost : NoneLost queue free (nobody : Sleepers Thread Queue Call) :=
  fun _ _ h => absurd rfl h

theorem NoneLost.mono (h : NoneLost queue free s) (less : ∀ q, free' q → free q) :
    NoneLost queue free' s :=
  fun q hq => h q (less q hq)

theorem Placed.awake (h : Placed queue s) (awake : s.sleeping c = none) :
    (∀ q, c ∉ s.entries q) ∧ c ∉ s.pending := by
  constructor
  · intro q hc
    obtain ⟨call, hcall, -⟩ := h.queued q c hc
    cases awake.symm.trans hcall
  · intro hc
    obtain ⟨call, hcall⟩ := h.woken c hc
    cases awake.symm.trans hcall

section
variable [DecidableEq Thread] [DecidableEq Queue]

omit [DecidableEq Queue] in
theorem sleeping_of_ne {d : Thread} (ne : d ≠ c) {next : Option Call} :
    Function.update s.sleeping c next d = s.sleeping d :=
  update_of_ne ne _ _

/-! ## Going to sleep -/

theorem sleep_placed (h : Placed queue s) (awake : s.sleeping c = none) (call : Call) :
    Placed queue (sleep queue s c call) := by
  obtain ⟨unqueued, unwoken⟩ := h.awake awake
  have ne_of_queued : ∀ q, ∀ d ∈ s.entries q, d ≠ c := by
    rintro q d hd rfl
    exact unqueued q hd
  have ne_of_woken : ∀ d ∈ s.pending, d ≠ c := by
    rintro d hd rfl
    exact unwoken hd
  refine { queued := ?_, woken := ?_, once := ?_ }
  · intro q d hd
    simp only [sleep] at hd ⊢
    by_cases same : q = queue call
    · rw [same, update_self] at hd
      rcases mem_append.mp hd with hd | hd
      · rw [sleeping_of_ne (ne_of_queued _ d hd), same]
        exact h.queued _ d hd
      · rw [mem_singleton.mp hd, update_self]
        exact ⟨call, rfl, same.symm⟩
    · rw [update_of_ne same] at hd
      rw [sleeping_of_ne (ne_of_queued q d hd)]
      exact h.queued q d hd
  · intro d hd
    simp only [sleep]
    rw [sleeping_of_ne (ne_of_woken d hd)]
    exact h.woken d hd
  · intro q
    simp only [sleep]
    by_cases same : q = queue call
    · rw [same, update_self, append_assoc]
      refine nodup_middle.mpr (nodup_cons.mpr ⟨?_, h.once _⟩)
      rw [mem_append]
      rintro (hc | hc)
      · exact unqueued _ hc
      · exact unwoken hc
    · rw [update_of_ne same]
      exact h.once q

theorem sleep_noneLost (h : Placed queue s) (kept : NoneLost queue free s)
    (awake : s.sleeping c = none) (taken : ¬ free (queue call)) :
    NoneLost queue free (sleep queue s c call) := by
  intro q hq sleepers
  have other : q ≠ queue call := by
    rintro rfl
    exact taken hq
  simp only [sleep, update_of_ne other] at sleepers
  obtain ⟨d, hd, e, he, of⟩ := kept q hq sleepers
  refine ⟨d, hd, e, ?_, of⟩
  have ne : d ≠ c := by
    rintro rfl
    exact (h.awake awake).2 hd
  simp only [sleep, sleeping_of_ne ne, he]

/-! ## Waking -/

omit [DecidableEq Thread] in
theorem wake_placed (h : Placed queue s) (q : Queue) : Placed queue (wake s q) := by
  unfold wake
  split
  · exact h
  next c rest first =>
  have once := h.once q
  rw [first, cons_append] at once
  have c_queued : c ∈ s.entries q := first ▸ mem_cons_self
  refine { queued := ?_, woken := ?_, once := ?_ }
  · intro p d hd
    by_cases same : p = q
    · subst same
      apply h.queued p d
      rw [first]
      simp only [update_self] at hd
      exact .tail _ hd
    · simp only [update_of_ne same] at hd
      exact h.queued p d hd
  · intro d hd
    rcases List.mem_append.mp hd with hd | hd
    · exact h.woken d hd
    · rw [List.mem_singleton.mp hd]
      obtain ⟨call, hcall, -⟩ := h.queued q c c_queued
      exact ⟨call, hcall⟩
  · intro p
    dsimp only
    by_cases same : p = q
    · subst same
      rw [update_self, ← append_assoc]
      exact (perm_append_singleton _ _).nodup_iff.mpr once
    rw [update_of_ne same, ← append_assoc]
    refine (perm_append_singleton _ _).nodup_iff.mpr (List.nodup_cons.mpr ⟨?_, h.once p⟩)
    rw [mem_append]
    rintro (hc | hc)
    · -- a thread of two queues would sleep in two calls
      obtain ⟨call, hcall, rfl⟩ := h.queued p c hc
      obtain ⟨call', hcall', rfl⟩ := h.queued q c c_queued
      cases hcall.symm.trans hcall'
      exact same rfl
    · exact (List.nodup_cons.mp once).1 (mem_append_right _ hc)

omit [DecidableEq Thread] in
/-- A release may free the lock of the queue it wakes, and no other. -/
theorem wake_noneLost (h : Placed queue s) (kept : NoneLost queue free s) (q : Queue)
    (others : ∀ p, p ≠ q → free' p → free p) : NoneLost queue free' (wake s q) := by
  intro p hp sleepers
  unfold wake at sleepers ⊢
  split at sleepers
  · next empty =>
    have other : p ≠ q := by
      rintro rfl
      exact sleepers empty
    exact kept p (others p other hp) sleepers
  · next c rest first =>
    by_cases same : p = q
    · subst same
      obtain ⟨call, hcall⟩ := h.queued p c (first ▸ mem_cons_self)
      exact ⟨c, mem_append_right _ (mem_singleton_self c), call, hcall⟩
    · simp only [update_of_ne same] at sleepers
      obtain ⟨d, hd, rest⟩ := kept p (others p same hp) sleepers
      exact ⟨d, mem_append_left _ hd, rest⟩

/-! ## Running again -/

variable {rest : List Thread}

omit [DecidableEq Queue] in
theorem enter_placed (h : Placed queue s) (first : s.pending = c :: rest) :
    Placed queue (enter s c rest) := by
  have once : ∀ q, c ∉ s.entries q ++ rest ∧ (s.entries q ++ rest).Nodup := by
    intro q
    have once := h.once q
    rw [first] at once
    exact List.nodup_cons.mp (List.nodup_middle.mp once)
  refine { queued := ?_, woken := ?_, once := fun q => (once q).2 }
  · intro q d hd
    have ne : d ≠ c := by
      rintro rfl
      exact (once q).1 (mem_append_left _ hd)
    obtain ⟨call, hcall, of⟩ := h.queued q d hd
    exact ⟨call, (sleeping_of_ne ne).trans hcall, of⟩
  · intro d hd
    have ne : d ≠ c := by
      rintro rfl
      obtain ⟨call, -⟩ := h.woken d (first ▸ mem_cons_self)
      exact (once (queue call)).1 (mem_append_right _ hd)
    obtain ⟨call, hcall⟩ := h.woken d (first ▸ .tail _ hd)
    exact ⟨call, (sleeping_of_ne ne).trans hcall⟩

omit [DecidableEq Queue] in
/-- The thread that runs again finds its lock taken, or takes it. -/
theorem enter_noneLost (kept : NoneLost queue free s) (first : s.pending = c :: rest)
    (of : s.sleeping c = some call) (taken : ∀ q, free' q → q ≠ queue call ∧ free q) :
    NoneLost queue free' (enter s c rest) := by
  intro q hq sleepers
  obtain ⟨other, was⟩ := taken q hq
  obtain ⟨d, hd, e, he, rfl⟩ := kept q was sleepers
  have ne : d ≠ c := by
    rintro rfl
    cases of.symm.trans he
    exact other rfl
  rw [first] at hd
  exact ⟨d, (List.mem_cons.mp hd).resolve_left ne, e, (sleeping_of_ne ne).trans he, rfl⟩

end

end QemuStm32.Wakeups
