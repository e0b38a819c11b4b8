import QemuStm32.Savevm.File

/-!
# Writing to a file and reading it back

The writing side of a `QEMUFile` collects bytes in its buffer and hands each full buffer
to `put_buffer`. `reads_written`: the typed reads that follow the typed writes return
what was written, however the transport splits the bytes.
-/

namespace QemuStm32.Savevm

open Readers List

/-- What `put_buffer` answers; it takes what it is given. -/
structure Sink where
  answer : (buf : List Byte) → (pos : Nat) → Int
  takes : ∀ buf pos, buf ≠ [] → 0 < answer buf pos

/-- A `QEMUFile` for writing. `buf` is the buffer up to `buf_index`, and `is_write` is set
as soon as it is not empty; `sent` is what the transport has got. -/
structure PutFile where
  buf : List Byte
  sent : List Byte
  bufOffset : Nat
  /-- `last_error` is `-EINVAL`. -/
  lastError : Bool

namespace PutFile

def start : PutFile := ⟨[], [], 0, false⟩

section
variable (put : Sink)

def fflush (f : PutFile) : PutFile :=
  if f.buf = [] then f
  else if 0 < put.answer f.buf f.bufOffset then
    ⟨[], f.sent.take f.bufOffset ++ f.buf, f.bufOffset + f.buf.length, f.lastError⟩
  else { f with buf := [], lastError := true }

/-- Bytes for which the buffer has room; a full buffer is flushed. -/
def append (f : PutFile) (bs : List Byte) : PutFile :=
  let f := { f with buf := f.buf ++ bs }
  if f.buf.length ≥ ioBufSize then f.fflush put else f

/-- The loop of `qemu_put_buffer`; each round takes a byte, so that there are no more
rounds than bytes. -/
def putBufferLoop (put : Sink) : Nat → PutFile → List Byte → PutFile
  | 0, f, _ => f
  | rounds + 1, f, bs =>
    if f.lastError ∨ bs = [] then f
    else
      let l := min (ioBufSize - f.buf.length) bs.length
      putBufferLoop put rounds (f.append put (bs.take l)) (bs.drop l)

variable (f : PutFile)

def putBuffer (bs : List Byte) : PutFile :=
  putBufferLoop put bs.length f bs

def putByte (v : Byte) : PutFile := f.append put [v]

def putBe16 (v : BitVec 16) : PutFile :=
  [v.extractLsb' 8 8, v.extractLsb' 0 8].foldl (putByte put) f

def putBe32 (v : BitVec 32) : PutFile :=
  (be32 v).foldl (putByte put) f

def putBe64 (v : BitVec 64) : PutFile :=
  (f.putBe32 put (v.extractLsb' 32 32)).putBe32 put (v.extractLsb' 0 32)

end

/-- The file has taken `bs` without an error, and its buffer is not full. -/
structure Took (f : PutFile) (bs : List Byte) : Prop where
  bytes : f.sent ++ f.buf = bs
  offset : f.bufOffset = f.sent.length
  noError : f.lastError = false
  room : f.buf.length < ioBufSize

variable (put : Sink) {f : PutFile} {bs : List Byte}

theorem Took.append (h : Took f bs) (more : List Byte) : Took (f.append put more) (bs ++ more) := by
  have bytes : f.sent ++ (f.buf ++ more) = bs ++ more := by rw [← append_assoc, h.bytes]
  have offset := h.offset
  unfold PutFile.append
  dsimp only
  split
  · next full =>
    have some : f.buf ++ more ≠ [] := by
      rintro empty
      simp [empty, ioBufSize] at full
    rw [fflush, if_neg some, if_pos (put.takes _ _ some)]
    refine ⟨?_, ?_, h.noError, Nat.zero_lt_succ _⟩
    · simpa [offset] using bytes
    · simp [offset]
  · next room => exact ⟨bytes, offset, h.noError, Nat.lt_of_not_ge room⟩

theorem Took.putBytes (h : Took f bs) (more : List Byte) :
    Took (more.foldl (putByte put) f) (bs ++ more) := by
  induction more generalizing f bs with
  | nil => simpa using h
  | cons v more ih =>
    have one : Took (f.putByte put v) (bs ++ [v]) := h.append put [v]
    simpa using ih one

theorem Took.putBufferLoop (h : Took f bs) {more : List Byte} {rounds : Nat}
    (enough : more.length ≤ rounds) : Took (putBufferLoop put rounds f more) (bs ++ more) := by
  induction rounds generalizing f bs more with
  | zero =>
    obtain rfl := eq_nil_of_length_eq_zero (Nat.le_zero.mp enough)
    rwa [append_nil]
  | succ rounds ih =>
    have room := h.room
    rw [PutFile.putBufferLoop]
    split
    · next stop =>
      obtain rfl : more = [] := stop.resolve_left (by simp [h.noError])
      simpa using h
    · generalize l_eq : min (ioBufSize - f.buf.length) more.length = l
      have fewer : (more.drop l).length ≤ rounds := by
        rw [length_drop]
        omega
      have rest := ih (h.append put (more.take l)) fewer
      rwa [append_assoc, take_append_drop] at rest

/-- A file that is closed has sent everything. -/
theorem Took.sent (h : Took f bs) : (f.fflush put).sent = bs := by
  rw [← h.bytes, fflush]
  split
  · next empty => simp [empty]
  · next some =>
    rw [if_pos (put.takes _ _ some)]
    simp [h.offset]

end PutFile

/-! ## Typed values -/

inductive Item
  | byte (v : Byte)
  | be16 (v : BitVec 16)
  | be32 (v : BitVec 32)
  | be64 (v : BitVec 64)
  | buffer (bs : List Byte)
  deriving DecidableEq, Repr

namespace Item

def put (sink : Sink) (f : PutFile) : Item → PutFile
  | byte v => f.putByte sink v
  | be16 v => f.putBe16 sink v
  | be32 v => f.putBe32 sink v
  | be64 v => f.putBe64 sink v
  | buffer bs => f.putBuffer sink bs

variable {ε α : Type}

def getBe32 (next : BitVec 32 → Taker ε α) : Taker ε α :=
  .getByte fun b0 => .getByte fun b1 => .getByte fun b2 => .getByte fun b3 =>
    next (b0 ++ b1 ++ b2 ++ b3)

/-- The read of the item's type; of the item itself only the type and the length of a
buffer matter. -/
def get (next : Item → Taker ε α) : Item → Taker ε α
  | byte _ => .getByte fun v => next (byte v)
  | be16 _ => .getByte fun b0 => .getByte fun b1 => next (be16 (b0 ++ b1))
  | be32 _ => getBe32 fun v => next (be32 v)
  | be64 _ => getBe32 fun hi => getBe32 fun lo => next (be64 (hi ++ lo))
  | buffer bs => .getBytes bs.length fun bs => next (buffer bs)

def bytes : Item → List Byte
  | byte v => [v]
  | be16 v => [v.extractLsb' 8 8, v.extractLsb' 0 8]
  | be32 v => Readers.be32 v
  | be64 v => Readers.be32 (v.extractLsb' 32 32) ++ Readers.be32 (v.extractLsb' 0 32)
  | buffer bs => bs

theorem put_took {sink : Sink} {f : PutFile} {bs : List Byte} (h : f.Took bs) (item : Item) :
    (item.put sink f).Took (bs ++ item.bytes) := by
  cases item with
  | byte v => exact h.putBytes sink [v]
  | be16 v | be32 v => exact h.putBytes sink _
  | be64 v =>
    rw [bytes, ← append_assoc]
    exact (h.putBytes sink _).putBytes sink _
  | buffer bs => exact h.putBufferLoop sink (Nat.le_refl _)

theorem run_getBe32 (v : BitVec 32) (next : BitVec 32 → Taker ε α) (rest : List Byte)
    (taken : Nat) (failed : Bool) :
    (getBe32 next).toReader.run ⟨Readers.be32 v ++ rest, taken, failed⟩ =
      (next v).toReader.run ⟨rest, taken + 4, failed⟩ := by
  have value : v.extractLsb' 24 8 ++ v.extractLsb' 16 8 ++ v.extractLsb' 8 8 ++
      v.extractLsb' 0 8 = v := by
    grind
  exact congrArg (fun v => (next v).toReader.run _) value

theorem run_get (item : Item) (next : Item → Taker ε α) (rest : List Byte) (taken : Nat)
    (failed : Bool) : (item.get next).toReader.run ⟨item.bytes ++ rest, taken, failed⟩ =
      (next item).toReader.run ⟨rest, taken + item.bytes.length, failed⟩ := by
  cases item with
  | byte v => rfl
  | be16 v =>
    have value : v.extractLsb' 8 8 ++ v.extractLsb' 0 8 = v := by grind
    exact congrArg (fun v => (next (be16 v)).toReader.run _) value
  | be32 v => exact run_getBe32 v (fun v => next (be32 v)) rest taken failed
  | be64 v =>
    have value : v.extractLsb' 32 32 ++ v.extractLsb' 0 32 = v := by grind
    rw [get, bytes, append_assoc, run_getBe32, run_getBe32, value]
    rfl
  | buffer bs => simp [get, bytes, Taker.toReader, Reader.run]

end Item

/-! ## Reading back -/

section
variable (t : Transport) {f : QemuFile}

theorem fileSkip_room {n : Nat} (pos : 0 < n) (size : f.pending.length ≤ ioBufSize)
    (inside : n ≤ f.pending.length ∨ f.pending = []) :
    (f.fileSkip n).pending.length < ioBufSize := by
  unfold QemuFile.fileSkip
  split
  · rw [length_drop]
    omega
  · next short =>
    rw [inside.resolve_left short]
    decide

theorem want_size (size : f.pending.length ≤ ioBufSize) (n : Nat) :
    (f.want t n).pending.length ≤ ioBufSize := by
  unfold QemuFile.want
  split
  · have le := t.le f.calls (ioBufSize - f.pending.length)
    simp only [QemuFile.fillBuffer, length_append, length_take]
    omega
  · exact size

/-- A read does not leave a full buffer. -/
theorem getByte_room (room : f.pending.length < ioBufSize) :
    (f.getByte t).2.pending.length < ioBufSize := by
  simp only [QemuFile.getByte, peekByte_eq]
  refine fileSkip_room Nat.one_pos (want_size t (Nat.le_of_lt room) _) ?_
  exact (Nat.eq_zero_or_pos _).symm.imp_right eq_nil_of_length_eq_zero

theorem getBufferLoop_room (room : f.pending.length < ioBufSize) (rounds size : Nat) :
    (QemuFile.getBufferLoop t rounds f size).2.pending.length < ioBufSize := by
  induction rounds generalizing f size with
  | zero => exact room
  | succ rounds ih =>
    have peeked : f.peekBuffer t size 0 = ((f.want t size).pending.take size, f.want t size) := by
      simp [QemuFile.peekBuffer, QemuFile.want]
    have whole := want_size t (Nat.le_of_lt room) size
    rw [QemuFile.getBufferLoop, peeked]
    split
    · exact room
    next nonzero =>
    dsimp only
    split
    · next none =>
      have empty : (f.want t size).pending = [] := (take_eq_nil_iff.mp none).resolve_left nonzero
      rw [empty]
      decide
    · next some =>
      refine ih (fileSkip_room (length_pos_iff.mpr some) whole (.inl ?_)) _
      rw [length_take]
      omega

/-- A program that does not look ahead never meets a full buffer. -/
theorem Taker.supplied {ε α : Type} (p : Taker ε α) (room : f.pending.length < ioBufSize) :
    Supplied t p.toReader f := by
  induction p generalizing f with
  | done a | fault e => trivial
  | getByte next ih => exact ih _ (getByte_room t room)
  | getBytes size next ih => exact ⟨.inl room, ih _ (getBufferLoop_room t room size size)⟩
  | tell next ih | failed next ih => exact ih _ room

end

/-- A read's value, `qemu_ftell` after it and whether there is an error. -/
abbrev Seen := Item × Nat × Bool

/-- One read for each item, of its type. -/
def readItems (seen : List Seen) : List Item → Taker Empty (List Seen)
  | [] => .done seen
  | item :: items => item.get fun v => .tell fun n => .failed fun e =>
      readItems (seen ++ [(v, n, e)]) items

/-- The items themselves, with the bytes counted and no error. -/
def consumed (taken : Nat) : List Item → List Seen
  | [] => []
  | item :: items =>
    (item, taken + item.bytes.length, false) :: consumed (taken + item.bytes.length) items

theorem run_readItems (items : List Item) (seen : List Seen) (taken : Nat) :
    (readItems seen items).toReader.run ⟨items.flatMap Item.bytes, taken, false⟩ =
      .ok (seen ++ consumed taken items,
        ⟨[], taken + (items.flatMap Item.bytes).length, false⟩) := by
  induction items generalizing seen taken with
  | nil => simp [readItems, consumed, Taker.toReader]
  | cons item items ih =>
    rw [readItems, flatMap_cons, Item.run_get]
    refine (ih _ _).trans ?_
    simp [consumed, Nat.add_assoc]

/-- The bytes of a file to which the items are written and that is closed. -/
def written (sink : Sink) (items : List Item) : List Byte :=
  ((items.foldl (Item.put sink) .start).fflush sink).sent

theorem written_eq (sink : Sink) (items : List Item) :
    written sink items = items.flatMap Item.bytes := by
  have took {f : PutFile} {bs : List Byte} (h : f.Took bs) :
      (items.foldl (Item.put sink) f).Took (bs ++ items.flatMap Item.bytes) := by
    induction items generalizing f bs with
    | nil => simpa using h
    | cons item items ih => simpa using ih (Item.put_took h item)
  have start : PutFile.start.Took [] := ⟨rfl, rfl, rfl, by decide⟩
  exact (took start).sent sink

theorem reads_written (sink : Sink) (t : Transport) (items : List Item) :
    ∃ f, runFile t (readItems [] items).toReader (.start (written sink items)) =
        .ok (consumed 0 items, f) ∧ f.stream = ⟨[], (written sink items).length, false⟩ := by
  have counted : (QemuFile.start (written sink items)).Counted := Nat.le_refl 0
  have supplied : Supplied t (readItems [] items).toReader (.start (written sink items)) :=
    Taker.supplied t _ (Nat.zero_lt_succ _)
  have same := runFile_of_supplied counted (Nat.zero_le _) (Taker.disciplined _) supplied
  have listed := run_readItems items [] 0
  rw [← written_eq sink, nil_append, Nat.zero_add] at listed
  have stream : (QemuFile.start (written sink items)).stream = ⟨written sink items, 0, false⟩ := rfl
  rw [stream, listed] at same
  cases ran : runFile t (readItems [] items).toReader (.start (written sink items)) with
  | error e => cases e
  | ok r =>
    rw [ran] at same
    exact ⟨r.2, by rw [← same.1], same.2⟩

end QemuStm32.Savevm
