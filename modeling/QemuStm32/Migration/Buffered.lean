import QemuStm32.Fault
import QemuStm32.Lib.Runs

/-!
# The buffered file of a migration

`buffered_file.c`: data goes to the backend at once or is kept in a buffer until the backend
takes it.

`bytes_in_order`: in every run in which the backend never returns 0, what the backend has
taken and what the buffer holds are the bytes put so far, in order.
-/

namespace QemuStm32.Migration

open Runs List

abbrev Byte := BitVec 8

def eagain : Int := 11
def einval : Int := 22

/-- `buffer`, with `buffer_size` as its length, in an allocation of `buffer_capacity` bytes. -/
structure Backlog where
  buffer : List Byte
  capacity : Nat
  fits : buffer.length ≤ capacity

/-- `buffered_append`. -/
def Backlog.append (b : Backlog) (buf : List Byte) : Backlog where
  buffer := b.buffer ++ buf
  capacity :=
    if buf.length > b.capacity - b.buffer.length then b.capacity + (buf.length + 1024)
    else b.capacity
  fits := by
    have := b.fits
    rw [length_append]
    split <;> omega

/-- The `memmove` at the end of `buffered_flush`: the last bytes of the buffer move to its
front. -/
def Backlog.keep (b : Backlog) (rest : List Byte) (suffix : rest <:+ b.buffer) : Backlog where
  buffer := rest
  capacity := b.capacity
  fits := Nat.le_trans suffix.length_le b.fits

/-- A `QEMUFileBuffered` with `last_error` of its file and the state of the backend. The last
four fields are not in the source: what the backend replied and accepted, what was put, and
the number of calls of `put_ready`. -/
structure File (β : Type) where
  lastError : Int
  freezeOutput : Bool
  bytesXfer : Nat
  xferLimit : Nat
  backlog : Backlog
  backend : β
  closed : Bool
  replies : List Int
  sent : List Byte
  put : List Byte
  ready : Nat

/-- `put_buffer` of the backend. -/
abbrev PutBuffer (β : Type) := β → List Byte → Int × β

/-- An `ssize_t` passed as an `int`. -/
def toInt (ret : Int) : Int := (BitVec.ofInt 32 ret).toInt

variable {n : Nat} {data : List Byte}

section
variable {β : Type} (put : PutBuffer β)

/-- A call of the backend that was given `data`. -/
def call (s : File β) (data : List Byte) : Int × File β :=
  let (ret, b) := put s.backend data
  (ret, { s with
    backend := b
    replies := s.replies ++ [ret]
    sent := s.sent ++ data.take ret.toNat })

def qemuFileSetError (s : File β) (ret : Int) : File β := { s with lastError := toInt ret }

/-- The loop of `buffered_flush`, on the bytes from `offset` on. A round that does not end it
takes at least one byte; a backend that takes more than it is offered makes `offset` leave
the buffer. -/
def flushLoop : Nat → List Byte → File β → Except Fault (List Byte × File β)
  | _, [], s => .ok ([], s)
  | 0, _ :: _, _ => .error .endlessLoop
  | n + 1, data, s =>
    let (ret, s) := call put s data
    if ret = -eagain then .ok (data, { s with freezeOutput := true })
    else if ret ≤ 0 then .ok (data, qemuFileSetError s ret)
    else if ret.toNat > data.length then .error (.outOfBounds "buffer" ret.toNat)
    else flushLoop n (data.drop ret.toNat) s

theorem flushLoop_suffix {rest : List Byte} {s s' : File β}
    (h : flushLoop put n data s = .ok (rest, s')) : rest <:+ data := by
  induction n generalizing data s with
  | zero =>
    cases data with
    | nil =>
      cases h
      exact suffix_rfl
    | cons a data => cases h
  | succ n ih =>
    cases data with
    | nil =>
      cases h
      exact suffix_rfl
    | cons a data =>
      unfold flushLoop at h
      dsimp only at h
      split at h
      · cases h
        exact suffix_rfl
      split at h
      · cases h
        exact suffix_rfl
      · split at h
        · cases h
        · exact (ih h).trans (drop_suffix ..)

def bufferedFlush (s : File β) : Except Fault (File β) :=
  if s.lastError ≠ 0 then .ok s
  else
    match h : flushLoop put s.backlog.buffer.length s.backlog.buffer s with
    | .ok (rest, s') => .ok { s' with backlog := s.backlog.keep rest (flushLoop_suffix put h) }
    | .error e => .error e

/-- The loop of `buffered_put_buffer`, on the bytes from `offset` on; `none` if `offset` is set
to `-EINVAL`. -/
def putLoop : Nat → List Byte → File β → Except Fault (Option (List Byte) × File β)
  | _, [], s => .ok (some [], s)
  | n, a :: data, s =>
    if s.freezeOutput then .ok (some (a :: data), s)
    else if s.bytesXfer > s.xferLimit then .ok (some (a :: data), s)
    else
      match n with
      | 0 => .error .endlessLoop
      | n + 1 =>
        let (ret, s) := call put s (a :: data)
        if ret = -eagain then .ok (some (a :: data), { s with freezeOutput := true })
        else if ret ≤ 0 then .ok (none, qemuFileSetError s ret)
        else if ret.toNat > (a :: data).length then .error (.outOfBounds "buf" ret.toNat)
        else putLoop n ((a :: data).drop ret.toNat) { s with bytesXfer := s.bytesXfer + ret.toNat }

def bufferedPutBuffer (s : File β) (buf : List Byte) (pos : Int) : Except Fault (Int × File β) :=
  let s := { s with put := s.put ++ buf }
  if s.lastError ≠ 0 then .ok (s.lastError, s)
  else
    bufferedFlush put { s with freezeOutput := false } >>= fun s =>
      putLoop put buf.length buf s >>= fun (rest, s) =>
        let (offset, s) : Int × File β :=
          match rest with
          | some rest => (buf.length, { s with backlog := s.backlog.append rest })
          | none => (-einval, s)
        if pos = 0 ∧ buf.length = 0 ∧ s.bytesXfer ≤ s.xferLimit then
          .ok (offset, { s with ready := s.ready + 1 })
        else .ok (offset, s)

def bufferedRateTick (s : File β) : Except Fault (File β) :=
  if s.lastError ≠ 0 then .ok { s with closed := true }
  else if s.freezeOutput then .ok s
  else
    bufferedFlush put { s with bytesXfer := 0 } >>= fun s => .ok { s with ready := s.ready + 1 }

inductive FileEvent
  | putBuffer (buf : List Byte) (pos : Int)
  /-- The backend is ready again: `buffered_put_buffer` with no bytes at position 0. -/
  | unfreeze
  | rateTick

/-- A file that is closed gets no calls any more. -/
def fileStep (s : File β) (e : FileEvent) : Except Fault (File β) :=
  if s.closed then .ok s
  else
    match e with
    | .putBuffer buf pos => bufferedPutBuffer put s buf pos >>= fun (_, s) => .ok s
    | .unfreeze => bufferedPutBuffer put s [] 0 >>= fun (_, s) => .ok s
    | .rateTick => bufferedRateTick put s

/-- `qemu_fopen_ops_buffered`. -/
def fopenOpsBuffered (b : β) (bytesPerSec : Nat) : File β where
  lastError := 0
  freezeOutput := false
  bytesXfer := 0
  xferLimit := bytesPerSec / 10
  backlog := ⟨[], 0, Nat.le_refl 0⟩
  backend := b
  closed := false
  replies := []
  sent := []
  put := []
  ready := 0

end

/-! ## Order -/

section
variable {β : Type} {put : PutBuffer β} {s s' s'' : File β}

/-- The backend takes no more than it is offered. -/
def Documented (put : PutBuffer β) : Prop := ∀ b data, (put b data).1 ≤ data.length

/-- Every reply that counts as an error has a number to remember. -/
def Clean (s : File β) : Prop := ∀ ret ∈ s.replies, ret ≤ 0 → toInt ret ≠ 0

instance (s : File β) : Decidable (Clean s) :=
  inferInstanceAs (Decidable (∀ ret ∈ s.replies, ret ≤ 0 → toInt ret ≠ 0))

def InOrder (s : File β) : Prop := s.lastError = 0 → s.sent ++ s.backlog.buffer = s.put

/-- What every call of the backend leaves as it is; an error is not forgotten. -/
structure Follows (s s' : File β) : Prop where
  replies : s.replies <+: s'.replies
  put : s'.put = s.put
  closed : s'.closed = s.closed
  sticky : Clean s' → s'.lastError = 0 → s.lastError = 0

theorem Follows.refl (s : File β) : Follows s s := ⟨prefix_rfl, rfl, rfl, fun _ h => h⟩

theorem Follows.clean (h : Follows s s') (clean : Clean s') : Clean s :=
  fun ret mem => clean ret (h.replies.subset mem)

theorem Follows.trans (h : Follows s s') (h' : Follows s' s'') : Follows s s'' :=
  ⟨h.replies.trans h'.replies, h'.put.trans h.put, h'.closed.trans h.closed,
    fun clean none => h.sticky (h'.clean clean) (h'.sticky clean none)⟩

theorem call_follows (put : PutBuffer β) (s : File β) (data : List Byte) :
    Follows s (call put s data).2 :=
  ⟨prefix_append .., rfl, rfl, fun _ h => h⟩

/-- An error reply leaves an error behind. -/
theorem setError_ne (s : File β) (bad : (call put s data).1 ≤ 0)
    (clean : Clean (qemuFileSetError (call put s data).2 (call put s data).1)) :
    (qemuFileSetError (call put s data).2 (call put s data).1).lastError ≠ 0 :=
  clean _ (mem_append_right _ mem_cons_self) bad

theorem setError_follows (s : File β) (bad : (call put s data).1 ≤ 0) :
    Follows s (qemuFileSetError (call put s data).2 (call put s data).1) :=
  ⟨prefix_append .., rfl, rfl, fun clean none => absurd none (setError_ne s bad clean)⟩

theorem call_none (s : File β) (bad : (call put s data).1 ≤ 0) :
    (call put s data).2.sent = s.sent := by
  have zero : (put s.backend data).1.toNat = 0 := Int.toNat_of_nonpos bad
  change s.sent ++ data.take (put s.backend data).1.toNat = s.sent
  rw [zero, take_zero, append_nil]

theorem call_some (s : File β) (data : List Byte) :
    (call put s data).2.sent ++ data.drop (call put s data).1.toNat = s.sent ++ data := by
  change s.sent ++ data.take (put s.backend data).1.toNat ++
    data.drop (put s.backend data).1.toNat = _
  rw [append_assoc, take_append_drop]

/-- A reply that ends neither loop shortens the data. -/
theorem drop_shorter {ret : Int} {a : Byte} (good : ¬ret ≤ 0)
    (enough : (a :: data).length ≤ n + 1) : ((a :: data).drop ret.toNat).length ≤ n := by
  rw [length_drop]
  omega

theorem Documented.within (documented : Documented put) (s : File β) (data : List Byte) :
    ¬(call put s data).1.toNat > data.length := by
  have most : (call put s data).1 ≤ data.length := documented s.backend data
  omega

theorem flushLoop_spec (documented : Documented put) (enough : data.length ≤ n) (s : File β) :
    ∃ rest s', flushLoop put n data s = .ok (rest, s') ∧ Follows s s' ∧
      s'.sent ++ rest = s.sent ++ data ∧
      (Clean s' → s'.lastError = 0 → rest = [] ∨ s'.freezeOutput = true) := by
  induction n generalizing data s with
  | zero =>
    obtain rfl := eq_nil_of_length_eq_zero (Nat.le_zero.mp enough)
    exact ⟨[], s, rfl, .refl s, rfl, fun _ _ => .inl rfl⟩
  | succ n ih =>
    cases data with
    | nil => exact ⟨[], s, rfl, .refl s, rfl, fun _ _ => .inl rfl⟩
    | cons a data =>
      unfold flushLoop
      dsimp only
      split
      · rename_i again
        have bad : (call put s (a :: data)).1 ≤ 0 := by rw [again]; decide
        have follows := call_follows put s (a :: data)
        refine ⟨_, _, rfl, ⟨follows.replies, follows.put, follows.closed, follows.sticky⟩, ?_,
          fun _ _ => .inr rfl⟩
        rw [call_none s bad]
      · split
        · rename_i bad
          refine ⟨_, _, rfl, setError_follows s bad, ?_,
            fun clean none => absurd none (setError_ne s bad clean)⟩
          dsimp only [qemuFileSetError]
          rw [call_none s bad]
        · rename_i good
          rw [if_neg (documented.within s _)]
          obtain ⟨rest, s', ok, follows, sent, ended⟩ :=
            ih (drop_shorter good enough) (call put s (a :: data)).2
          exact ⟨rest, s', ok, (call_follows put s _).trans follows, sent.trans (call_some s _),
            ended⟩

theorem putLoop_frozen (n : Nat) (data : List Byte) (frozen : s.freezeOutput = true) :
    putLoop put n data s = .ok (some data, s) := by
  cases data with
  | nil => unfold putLoop; rfl
  | cons a data =>
    unfold putLoop
    rw [if_pos frozen]

section
variable (documented : Documented put)
include documented

theorem putLoop_spec (enough : data.length ≤ n) (s : File β) :
    ∃ rest s', putLoop put n data s = .ok (rest, s') ∧ Follows s s' ∧ s'.backlog = s.backlog ∧
      (∀ r, rest = some r → s'.sent ++ r = s.sent ++ data) ∧
      (rest = none → Clean s' → s'.lastError ≠ 0) := by
  induction n generalizing data s with
  | zero =>
    obtain rfl := eq_nil_of_length_eq_zero (Nat.le_zero.mp enough)
    exact ⟨some [], s, by unfold putLoop; rfl, .refl s, rfl, fun r same => by cases same; rfl,
      nofun⟩
  | succ n ih =>
    cases data with
    | nil =>
      exact ⟨some [], s, by unfold putLoop; rfl, .refl s, rfl, fun r same => by cases same; rfl,
        nofun⟩
    | cons a data =>
      have stop : ∃ rest s', (Except.ok (some (a :: data), s) : Except Fault _) = .ok (rest, s') ∧
          Follows s s' ∧ s'.backlog = s.backlog ∧
          (∀ r, rest = some r → s'.sent ++ r = s.sent ++ (a :: data)) ∧
          (rest = none → Clean s' → s'.lastError ≠ 0) :=
        ⟨_, _, rfl, .refl s, rfl, fun r same => by cases same; rfl, nofun⟩
      unfold putLoop
      split
      · exact stop
      split
      · exact stop
      dsimp only
      split
      · rename_i again
        have bad : (call put s (a :: data)).1 ≤ 0 := by rw [again]; decide
        have follows := call_follows put s (a :: data)
        refine ⟨_, _, rfl, ⟨follows.replies, follows.put, follows.closed, follows.sticky⟩, rfl,
          fun r same => ?_, nofun⟩
        cases same
        rw [call_none s bad]
      · split
        · rename_i bad
          exact ⟨_, _, rfl, setError_follows s bad, rfl, nofun,
            fun _ clean => setError_ne s bad clean⟩
        rename_i good
        have follows := call_follows put s (a :: data)
        have counted : Follows s { (call put s (a :: data)).2 with
            bytesXfer := (call put s (a :: data)).2.bytesXfer +
              (call put s (a :: data)).1.toNat } :=
          ⟨follows.replies, follows.put, follows.closed, follows.sticky⟩
        rw [if_neg (documented.within s _)]
        obtain ⟨rest, s', ok, follows', backlog, sent, failed⟩ :=
          ih (drop_shorter good enough) { (call put s (a :: data)).2 with
            bytesXfer := (call put s (a :: data)).2.bytesXfer +
              (call put s (a :: data)).1.toNat }
        exact ⟨rest, s', ok, counted.trans follows', backlog,
          fun r same => (sent r same).trans (call_some s _), failed⟩

theorem bufferedFlush_spec (s : File β) :
    ∃ s', bufferedFlush put s = .ok s' ∧ Follows s s' ∧
      s'.sent ++ s'.backlog.buffer = s.sent ++ s.backlog.buffer ∧
      (Clean s' → s'.lastError = 0 → s'.backlog.buffer = [] ∨ s'.freezeOutput = true) := by
  unfold bufferedFlush
  split
  · rename_i error
    exact ⟨s, rfl, .refl s, rfl, fun _ none => absurd none error⟩
  obtain ⟨rest, s', ok, follows, sent, ended⟩ := flushLoop_spec documented le_rfl s
  split
  · rename_i found
    cases ok.symm.trans found
    exact ⟨_, rfl, ⟨follows.replies, follows.put, follows.closed, follows.sticky⟩, sent, ended⟩
  · rename_i found
    cases ok.symm.trans found

theorem bufferedPutBuffer_spec (s : File β) (buf : List Byte)
    (pos : Int)
    (h : Clean s → InOrder s) :
    ∃ ret s', bufferedPutBuffer put s buf pos = .ok (ret, s') ∧ (Clean s' → InOrder s') := by
  unfold bufferedPutBuffer
  dsimp only
  split
  · rename_i error
    exact ⟨_, _, rfl, fun _ none => absurd none error⟩
  obtain ⟨s₁, flushed, follows₁, sent₁, ended⟩ := bufferedFlush_spec documented
    { s with put := s.put ++ buf, freezeOutput := false }
  obtain ⟨rest, s₂, ok, follows₂, backlog, sent₂, failed⟩ :=
    putLoop_spec documented (Nat.le_refl buf.length) s₁
  rw [flushed, ok_bind, ok, ok_bind]
  -- the call of `put_ready` changes neither the error nor the bytes
  suffices order : Clean s₂ → InOrder (match rest with
      | some rest => ((buf.length : Int), { s₂ with backlog := s₂.backlog.append rest })
      | none => (-einval, s₂)).2 by
    cases rest with
    | none | some rest =>
      dsimp only
      split <;> exact ⟨_, _, rfl, order⟩
  intro clean
  cases rest with
  | none => exact fun none => absurd none (failed rfl clean)
  | some rest =>
    intro none
    have clean₁ := follows₂.clean clean
    have none₁ := follows₂.sticky clean none
    have before : s.sent ++ s.backlog.buffer = s.put :=
      h (follows₁.clean clean₁) (follows₁.sticky clean₁ none₁)
    dsimp only [Backlog.append]
    rw [follows₂.put, follows₁.put, ← before, ← sent₁, backlog]
    obtain empty | frozen := ended clean₁ none₁
    · rw [empty, nil_append, append_nil, sent₂ rest rfl]
    · rw [putLoop_frozen _ _ frozen] at ok
      cases ok
      rw [append_assoc]

theorem bufferedRateTick_spec (s : File β) (h : Clean s → InOrder s) :
    ∃ s', bufferedRateTick put s = .ok s' ∧ (Clean s' → InOrder s') := by
  unfold bufferedRateTick
  split
  · exact ⟨_, rfl, h⟩
  split
  · exact ⟨_, rfl, h⟩
  obtain ⟨s₁, flushed, follows, sent, -⟩ := bufferedFlush_spec documented { s with bytesXfer := 0 }
  rw [flushed]
  refine ⟨_, rfl, fun clean none => ?_⟩
  have before : s.sent ++ s.backlog.buffer = s.put :=
    h (follows.clean clean) (follows.sticky clean none)
  rw [sent, before, follows.put]

theorem fileStep_spec (s : File β) (e : FileEvent) (h : Clean s → InOrder s) :
    ∃ s', fileStep put s e = .ok s' ∧ (Clean s' → InOrder s') := by
  unfold fileStep
  split
  · exact ⟨s, rfl, h⟩
  cases e with
  | putBuffer buf pos =>
    obtain ⟨ret, s', ok, order⟩ := bufferedPutBuffer_spec documented s buf pos h
    exact ⟨s', by dsimp only; rw [ok, ok_bind], order⟩
  | unfreeze =>
    obtain ⟨ret, s', ok, order⟩ := bufferedPutBuffer_spec documented s [] 0 h
    exact ⟨s', by dsimp only; rw [ok, ok_bind], order⟩
  | rateTick => exact bufferedRateTick_spec documented s h

end

/-- In every run in which no reply of the backend is 0, or a negative multiple of 2^32, the
file that carries no error has lost, doubled or exchanged nothing. -/
theorem bytes_in_order {β : Type} (put : PutBuffer β) (documented : Documented put) (b : β)
    (bytesPerSec : Nat) (es : List FileEvent) :
    ∃ s, run (fileStep put) (fopenOpsBuffered b bytesPerSec) es = .ok s ∧
      (Clean s → InOrder s) := by
  have start : Clean (fopenOpsBuffered b bytesPerSec) → InOrder (fopenOpsBuffered b bytesPerSec) :=
    fun _ _ => rfl
  generalize fopenOpsBuffered b bytesPerSec = s at start
  induction es generalizing s with
  | nil => exact ⟨s, rfl, start⟩
  | cons e es ih =>
    obtain ⟨s', ok, order⟩ := fileStep_spec documented s e start
    obtain ⟨t, rest, order⟩ := ih s' order
    exact ⟨t, by rw [run, ok, ok_bind, rest], order⟩

end

/-- A backend that gives these replies, one after the other, and then takes everything. -/
def scripted : PutBuffer (List Int)
  | [], data => (data.length, [])
  | ret :: replies, data => (min ret data.length, replies)

theorem scripted_documented : Documented scripted := by
  intro replies data
  cases replies with
  | nil => exact Int.le_refl _
  | cons ret replies => exact Int.min_le_right ..

/-- Partial replies, a backend that is not ready, and a tick. -/
theorem bytes_in_order_scripted :
    let es := [FileEvent.putBuffer [1, 2, 3] 0, .putBuffer [4] 3, .rateTick, .unfreeze]
    ∃ s, run (fileStep scripted) (fopenOpsBuffered [2, -eagain, 1, -eagain] 100) es = .ok s ∧
      Clean s ∧ InOrder s := by
  intro es
  obtain ⟨s, ok, order⟩ :=
    bytes_in_order scripted scripted_documented [2, -eagain, 1, -eagain] 100 es
  have observed : (run (fileStep scripted) (fopenOpsBuffered [2, -eagain, 1, -eagain] 100)
      es).toOption.map (fun s => decide (Clean s)) = some true := by
    decide +kernel
  rw [ok] at observed
  have clean : Clean s := by simpa [Except.toOption] using observed
  exact ⟨s, ok, clean, order clean⟩

/-- The backend is not ready for the byte 1, which is buffered. When 2 is put the backend
returns 0 for the buffer and takes 2. -/
theorem zero_reply_reorders :
    ∃ s, run (fileStep scripted) (fopenOpsBuffered [-eagain, 0, 1] 100)
        [.putBuffer [1] 0, .putBuffer [2] 1] = .ok s ∧
      s.lastError = 0 ∧ s.put = [1, 2] ∧ s.sent ++ s.backlog.buffer = [2, 1] := by
  have observed : (run (fileStep scripted) (fopenOpsBuffered [-eagain, 0, 1] 100)
      [.putBuffer [1] 0, .putBuffer [2] 1]).toOption.map
      (fun s => (s.lastError, s.put, s.sent ++ s.backlog.buffer)) = some (0, [1, 2], [2, 1]) := by
    decide +kernel
  obtain ⟨s, ok, fields⟩ := exists_of_observed observed
  simp only [Prod.mk.injEq] at fields
  exact ⟨s, ok, fields⟩

end QemuStm32.Migration
