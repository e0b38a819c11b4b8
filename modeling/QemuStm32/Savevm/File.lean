import QemuStm32.Lib.Readers

/-!
# Buffered files

Reading from a `QEMUFile` of `savevm.c`. The buffer is refilled by a transport that
delivers at least one byte and at most what is asked for. A look ahead refills the
buffer at most once, and so it can see less than the stream has; a read refills it
until it has its bytes, and takes a full buffer that cannot be refilled for the end
of the file.

`runFile_of_supplied`: as long as these two cases do not occur, a program reads from
a buffered file what it reads from the list of the bytes.
-/

namespace QemuStm32.Savevm

open Readers List

/-- `IO_BUF_SIZE`. -/
def ioBufSize : Nat := 32768

/-- What `get_buffer` delivers in each call, as long as the stream has that much. -/
structure Transport where
  len : (call requested : Nat) → Nat
  pos : ∀ call requested, 0 < requested → 0 < len call requested
  le : ∀ call requested, len call requested ≤ requested

/-- A `QEMUFile` for reading. `pending` is the buffer from `buf_index` to `buf_size`,
`rest` what the transport has not delivered. -/
structure QemuFile where
  pending : List Byte
  rest : List Byte
  calls : Nat
  bufOffset : Nat
  /-- `last_error` is `-EIO`. -/
  lastError : Bool
  deriving DecidableEq, Repr

namespace QemuFile

/-- A file from which nothing has been read. -/
def start (bytes : List Byte) : QemuFile := ⟨[], bytes, 0, 0, false⟩

variable (t : Transport)

def fillBuffer (f : QemuFile) : QemuFile :=
  let got := f.rest.take (t.len f.calls (ioBufSize - f.pending.length))
  { pending := f.pending ++ got
    rest := f.rest.drop got.length
    calls := f.calls + 1
    bufOffset := f.bufOffset + got.length
    lastError := f.lastError || got.isEmpty }

def fileSkip (f : QemuFile) (size : Nat) : QemuFile :=
  if size ≤ f.pending.length then { f with pending := f.pending.drop size } else f

def peekBuffer (f : QemuFile) (size offset : Nat) : List Byte × QemuFile :=
  let f := if f.pending.length < offset + size then f.fillBuffer t else f
  ((f.pending.drop offset).take size, f)

/-- The loop of `qemu_get_buffer`; each round gets a byte, so that there are no more
rounds than bytes. -/
def getBufferLoop (t : Transport) : Nat → QemuFile → Nat → List Byte × QemuFile
  | 0, f, _ => ([], f)
  | rounds + 1, f, size =>
    if size = 0 then ([], f)
    else
      let (bs, f) := f.peekBuffer t size 0
      if bs = [] then ([], f)
      else
        let (more, f) := getBufferLoop t rounds (f.fileSkip bs.length) (size - bs.length)
        (bs ++ more, f)

variable (f : QemuFile)

def getBuffer (size : Nat) : List Byte × QemuFile :=
  getBufferLoop t size f size

def peekByte (offset : Nat) : Byte × QemuFile :=
  let f := if offset ≥ f.pending.length then f.fillBuffer t else f
  (f.pending[offset]?.getD 0, f)

def getByte : Byte × QemuFile :=
  let (result, f) := f.peekByte t 0
  (result, f.fileSkip 1)

def ftell : Nat := f.bufOffset - f.pending.length

end QemuFile

open QemuFile

variable {ε α β : Type}

/-- A program that reads from a buffered file. -/
def runFile (t : Transport) : Reader ε α → QemuFile → Except ε (α × QemuFile)
  | .done a, f => .ok (a, f)
  | .fault e, _ => .error e
  | .peekByte offset next, f => runFile t (next (f.peekByte t offset).1) (f.peekByte t offset).2
  | .peekBytes size offset next, f =>
    runFile t (next (f.peekBuffer t size offset).1) (f.peekBuffer t size offset).2
  | .skip size next, f => runFile t next (f.fileSkip size)
  | .getByte next, f => runFile t (next (f.getByte t).1) (f.getByte t).2
  | .getBytes size next, f => runFile t (next (f.getBuffer t size).1) (f.getBuffer t size).2
  | .tell next, f => runFile t (next f.ftell) f
  | .failed next, f => runFile t (next f.lastError) f

/-- Each look ahead for several bytes finds all of them in the buffer after at most one
refill, and no read of more than the buffer holds meets a full buffer. -/
def Supplied (t : Transport) : Reader ε α → QemuFile → Prop
  | .done _, _ => True
  | .fault _, _ => True
  | .peekByte offset next, f =>
    Supplied t (next (f.peekByte t offset).1) (f.peekByte t offset).2
  | .peekBytes size offset next, f =>
    offset + size ≤ (f.peekBuffer t size offset).2.pending.length ∧
      Supplied t (next (f.peekBuffer t size offset).1) (f.peekBuffer t size offset).2
  | .skip size next, f => Supplied t next (f.fileSkip size)
  | .getByte next, f => Supplied t (next (f.getByte t).1) (f.getByte t).2
  | .getBytes size next, f =>
    (f.pending.length < ioBufSize ∨ size ≤ ioBufSize) ∧
      Supplied t (next (f.getBuffer t size).1) (f.getBuffer t size).2
  | .tell next, f => Supplied t (next f.ftell) f
  | .failed next, f => Supplied t (next f.lastError) f

instance Supplied.decidable (t : Transport) :
    (p : Reader ε α) → (f : QemuFile) → Decidable (Supplied t p f)
  | .done _, _ => inferInstanceAs (Decidable True)
  | .fault _, _ => inferInstanceAs (Decidable True)
  | .peekByte offset next, f =>
    decidable t (next (f.peekByte t offset).1) (f.peekByte t offset).2
  | .peekBytes size offset next, f =>
    have := decidable t (next (f.peekBuffer t size offset).1) (f.peekBuffer t size offset).2
    inferInstanceAs (Decidable (_ ∧ _))
  | .skip size next, f => decidable t next (f.fileSkip size)
  | .getByte next, f => decidable t (next (f.getByte t).1) (f.getByte t).2
  | .getBytes size next, f =>
    have := decidable t (next (f.getBuffer t size).1) (f.getBuffer t size).2
    inferInstanceAs (Decidable (_ ∧ _))
  | .tell next, f => decidable t (next f.ftell) f
  | .failed next, f => decidable t (next f.lastError) f

/-- The program looks one byte ahead of what it has seen, and skips only what it has
seen. `seen` bytes are known to be in the buffer. -/
def Disciplined : (seen : Nat) → Reader ε α → Prop
  | _, .done _ => True
  | _, .fault _ => True
  | seen, .peekByte offset next =>
    offset ≤ seen ∧ offset < ioBufSize ∧
      (∀ b, b ≠ 0 → Disciplined (max seen (offset + 1)) (next b)) ∧ Disciplined seen (next 0)
  | seen, .peekBytes size offset next =>
    ∀ bs, Disciplined (max seen (offset + size)) (next bs)
  | seen, .skip size next => size ≤ seen ∧ Disciplined (seen - size) next
  | _, .getByte next => ∀ b, Disciplined 0 (next b)
  | _, .getBytes _ next => ∀ bs, Disciplined 0 (next bs)
  | seen, .tell next => ∀ n, Disciplined seen (next n)
  | seen, .failed next => ∀ b, Disciplined seen (next b)

variable {p : Reader ε α} {n offset size : Nat}

theorem Disciplined.mono {m : Nat} (h : Disciplined m p) (le : m ≤ n) : Disciplined n p := by
  induction p generalizing m n with
  | done a | fault e => trivial
  | peekByte offset next ih =>
    obtain ⟨seen, small, hit, miss⟩ := h
    exact ⟨by omega, small, fun b hb => ih b (hit b hb) (by omega), ih 0 miss le⟩
  | peekBytes size offset next ih => exact fun bs => ih bs (h bs) (by omega)
  | skip size next ih => exact ⟨by have := h.1; omega, ih h.2 (by omega)⟩
  | getByte next ih | getBytes size next ih => exact h
  | tell next ih | failed next ih => exact fun b => ih b (h b) le

theorem Disciplined.bind {q : α → Reader ε β} (h : Disciplined n p)
    (h' : ∀ a, Disciplined 0 (q a)) : Disciplined n (p >>= q) := by
  induction p generalizing n with
  | done a => exact (h' a).mono (Nat.zero_le n)
  | fault e => trivial
  | peekByte offset next ih =>
    obtain ⟨seen, small, hit, miss⟩ := h
    exact ⟨seen, small, fun b hb => ih b (hit b hb), ih 0 miss⟩
  | skip size next ih => exact ⟨h.1, ih h.2⟩
  | peekBytes size offset next ih | getByte next ih | getBytes size next ih | tell next ih
  | failed next ih => exact fun b => ih b (h b)

theorem Taker.disciplined (p : Taker ε α) : Disciplined 0 p.toReader := by
  induction p with
  | done a | fault e => trivial
  | getByte next ih | getBytes size next ih | tell next ih | failed next ih => exact ih

/-! ## The file and the list of its bytes -/

/-- The stream that the file has still to deliver. -/
def QemuFile.stream (f : QemuFile) : Stream := ⟨f.pending ++ f.rest, f.ftell, f.lastError⟩

/-- The offset counts what the transport delivered. -/
def QemuFile.Counted (f : QemuFile) : Prop := f.pending.length ≤ f.bufOffset

/-- The file once `n` bytes are wanted: refilled unless the buffer has them. -/
def QemuFile.want (t : Transport) (f : QemuFile) (n : Nat) : QemuFile :=
  if f.pending.length < n then f.fillBuffer t else f

section
variable {t : Transport} {f : QemuFile}

theorem peekByte_eq : f.peekByte t offset =
    ((f.want t (offset + 1)).pending[offset]?.getD 0, f.want t (offset + 1)) := by
  simp only [QemuFile.peekByte, want, Nat.lt_succ_iff, ge_iff_le]

theorem want_counted (t : Transport) (h : f.Counted) (n : Nat) : (f.want t n).Counted := by
  unfold Counted want at *
  split
  · simp only [fillBuffer, length_append]
    omega
  · exact h

theorem want_longer (t : Transport) (f : QemuFile) (n : Nat) :
    f.pending.length ≤ (f.want t n).pending.length := by
  unfold want
  split
  · simp [fillBuffer]
  · exact Nat.le_refl _

/-- A refill that gets something changes nothing but where the bytes are. -/
theorem want_stream
    (got : n ≤ (f.want t n).pending.length ∨ f.pending.length < (f.want t n).pending.length) :
    (f.want t n).stream = f.stream := by
  unfold want at *
  split
  · next short =>
    rw [if_pos short] at got
    have grows : f.pending.length < (f.fillBuffer t).pending.length := by omega
    simp only [fillBuffer, length_append] at grows
    generalize taken : f.rest.take (t.len f.calls (ioBufSize - f.pending.length)) = g at grows
    have front : g = f.rest.take g.length := by
      rw [← taken, length_take, ← take_eq_take_min]
    have rejoined : g ++ f.rest.drop g.length = f.rest :=
      (congrArg (· ++ f.rest.drop g.length) front).trans (take_append_drop _ _)
    have nonempty : g.isEmpty = false := by
      cases g with
      | nil => exact absurd grows (by simp)
      | cons b g => rfl
    simp only [QemuFile.stream, fillBuffer, ftell, taken, length_append, append_assoc,
      rejoined, nonempty, Bool.or_false]
    congr 1
    omega
  · rfl

/-- The buffer grows to what is wanted, byte by byte if need be, or the end is noted. -/
theorem want_cases (t : Transport) (room : f.pending.length < ioBufSize ∨ n ≤ ioBufSize) :
    ((f.want t n).stream = f.stream ∧
        (f.pending.length < n → f.pending.length < (f.want t n).pending.length)) ∨
      (f.want t n).stream = { f.stream with failed := true } ∧
        (f.want t n).pending = f.pending ∧ f.rest = [] ∧ f.pending.length < n := by
  by_cases short : f.pending.length < n
  · by_cases more : f.rest = []
    · refine .inr ⟨?_, ?_, more, short⟩
      · simp [QemuFile.stream, want, short, fillBuffer, ftell, more]
      · simp [want, short, fillBuffer, more]
    · have len := t.pos f.calls (ioBufSize - f.pending.length) (by omega)
      have left : 0 < f.rest.length := length_pos_iff.mpr more
      have grows : f.pending.length < (f.want t n).pending.length := by
        simp only [want, if_pos short, fillBuffer, length_append, length_take]
        omega
      exact .inl ⟨want_stream (.inr grows), fun _ => grows⟩
  · exact .inl ⟨by rw [want, if_neg short], fun lt => absurd lt short⟩

/-- Bytes that are in the buffer are those of the stream. -/
theorem take_pending (inside : offset + size ≤ f.pending.length) :
    (f.pending.drop offset).take size = (f.stream.bytes.drop offset).take size ∧
      ((f.pending.drop offset).take size).length = size := by
  constructor
  · rw [QemuFile.stream, drop_append_of_le_length (by omega),
      take_append_of_le_length (by rw [length_drop]; omega)]
  · rw [length_take, length_drop]
    omega

/-- One step of a program, with the file and with the list. -/
theorem peekByte_stream (seen : offset ≤ f.pending.length) (small : offset < ioBufSize) :
    (f.stream.bytes[offset]? = some (f.peekByte t offset).1 ∧
        (f.peekByte t offset).2.stream = f.stream ∧
        offset < (f.peekByte t offset).2.pending.length) ∨
      (f.stream.bytes[offset]? = none ∧ (f.peekByte t offset).1 = 0 ∧
        (f.peekByte t offset).2.stream = { f.stream with failed := true }) := by
  rw [peekByte_eq]
  obtain ⟨same, grows⟩ | ⟨same, pending, more, short⟩ :=
    want_cases (f := f) t (n := offset + 1) (.inr small)
  · have inside : offset < (f.want t (offset + 1)).pending.length := by
      have longer := want_longer t f (offset + 1)
      omega
    refine .inl ⟨?_, same, inside⟩
    rw [← same, QemuFile.stream, getElem?_append_left inside, getElem?_eq_getElem inside]
    rfl
  · refine .inr ⟨?_, ?_, same⟩
    · simp only [QemuFile.stream, more, append_nil]
      exact getElem?_eq_none (by omega)
    · rw [pending, getElem?_eq_none (by omega)]
      rfl

theorem fileSkip_stream (h : f.Counted) (seen : size ≤ f.pending.length) :
    (f.fileSkip size).Counted ∧ (f.fileSkip size).pending.length = f.pending.length - size ∧
      (f.fileSkip size).stream =
        { f.stream with bytes := f.stream.bytes.drop size, taken := f.stream.taken + size } := by
  unfold Counted at *
  simp only [fileSkip, if_pos seen, QemuFile.stream, ftell, length_drop]
  refine ⟨by omega, trivial, ?_⟩
  rw [drop_append_of_le_length seen]
  congr 1
  omega

/-- A single byte, or the end. -/
theorem getByte_stream (t : Transport) (h : f.Counted) :
    (f.getByte t).2.Counted ∧
      ((∃ bs, f.stream.bytes = (f.getByte t).1 :: bs ∧
          (f.getByte t).2.stream = { f.stream with bytes := bs, taken := f.stream.taken + 1 }) ∨
        f.stream.bytes = [] ∧ (f.getByte t).1 = 0 ∧
          (f.getByte t).2.stream = { f.stream with failed := true }) := by
  have counted : (f.peekByte t 0).2.Counted := by
    rw [peekByte_eq]
    exact want_counted t h 1
  obtain ⟨byte, same, there⟩ | ⟨none, zero, same⟩ := peekByte_stream (Nat.zero_le _) (by decide)
  · obtain ⟨counted', _, skipped⟩ := fileSkip_stream counted there
    refine ⟨counted', .inl ?_⟩
    cases bytes : f.stream.bytes with
    | nil => simp [bytes] at byte
    | cons b bs =>
      rw [bytes] at byte
      obtain rfl := Option.some.inj byte
      refine ⟨bs, rfl, skipped.trans ?_⟩
      rw [same, bytes]
      rfl
  · have empty : f.stream.bytes = [] := by simpa using none
    have drained : (f.peekByte t 0).2.pending = [] := by
      have bytes := congrArg Stream.bytes same
      rw [empty] at bytes
      exact (append_eq_nil_iff.mp bytes).1
    have stuck : (f.getByte t).2 = (f.peekByte t 0).2 := by
      simp [QemuFile.getByte, fileSkip, drained]
    rw [stuck]
    exact ⟨counted, .inr ⟨empty, zero, same⟩⟩

/-- What a read has done when it is over. -/
def GotBytes (s : Stream) (size : Nat) (r : List Byte × QemuFile) : Prop :=
  r.2.Counted ∧ r.1 = s.bytes.take size ∧
    r.2.stream = ⟨s.bytes.drop size, s.taken + (s.bytes.take size).length,
      s.failed || decide ((s.bytes.take size).length < size)⟩

/-- A round that gets some bytes and leaves the others to the next rounds. -/
theorem GotBytes.round (h : f.Counted) {size : Nat} {more : List Byte × QemuFile}
    (rest : GotBytes (f.fileSkip (f.pending.take size).length).stream
      (size - (f.pending.take size).length) more) :
    GotBytes f.stream size (f.pending.take size ++ more.1, more.2) := by
  obtain ⟨counted, bytes, stream⟩ := rest
  have le : (f.pending.take size).length ≤ size := by
    rw [length_take]
    omega
  have inside : (f.pending.take size).length ≤ f.pending.length := by
    rw [length_take]
    omega
  have skipped := (fileSkip_stream h inside).2.2
  have front : f.pending.take size = f.stream.bytes.take (f.pending.take size).length := by
    rw [QemuFile.stream, take_append_of_le_length inside, length_take, ← take_eq_take_min]
  generalize (f.pending.take size).length = n at *
  rw [skipped] at bytes stream
  have joined : f.pending.take size ++ more.1 = f.stream.bytes.take size := by
    rw [bytes, front, ← take_add, Nat.add_sub_cancel' le]
  have long : n ≤ f.stream.bytes.length := by
    rw [QemuFile.stream, length_append]
    omega
  have short : (f.stream.bytes.take size).length =
      n + ((f.stream.bytes.drop n).take (size - n)).length := by
    simp only [length_take, length_drop]
    omega
  refine ⟨counted, joined, ?_⟩
  rw [stream, short]
  simp only [drop_drop, Nat.add_sub_cancel' le, Nat.add_assoc]
  congr 3
  simp only [eq_iff_iff]
  omega

/-- A read at the end. -/
theorem GotBytes.nothing (h : f.Counted) (bytes : f.stream.bytes = [])
    (failed : f.stream.failed = true) : GotBytes f.stream size ([], f) := by
  refine ⟨h, by simp [bytes], ?_⟩
  cases stream : f.stream with
  | mk bs taken failed' =>
    simp_all

/-- An error that was noted before the end of a short read. -/
theorem GotBytes.atEnd {s : Stream} {r : List Byte × QemuFile}
    (short : (s.bytes.take size).length < size) (h : GotBytes { s with failed := true } size r) :
    GotBytes s size r := by
  obtain ⟨counted, bytes, stream⟩ := h
  refine ⟨counted, bytes, ?_⟩
  rw [stream, decide_eq_true short, Bool.or_true, Bool.or_true]

/-- A read gets its bytes, or all that there are. -/
theorem getBufferLoop_stream (h : f.Counted) {rounds : Nat} (enough : size ≤ rounds)
    (room : f.pending.length < ioBufSize ∨ size ≤ ioBufSize) :
    GotBytes f.stream size (getBufferLoop t rounds f size) := by
  induction rounds generalizing f size with
  | zero =>
    obtain rfl : size = 0 := by omega
    simp [getBufferLoop, GotBytes, h]
  | succ rounds ih =>
    by_cases nothing : size = 0
    · subst nothing
      simp [getBufferLoop, GotBytes, h]
    have peeked : f.peekBuffer t size 0 = ((f.want t size).pending.take size, f.want t size) := by
      simp [QemuFile.peekBuffer, want]
    have counted := want_counted t h size
    -- the round takes what the buffer has, the next ones get the rest
    have round (some : (f.want t size).pending ≠ []) :
        GotBytes (f.want t size).stream size (getBufferLoop t (rounds + 1) f size) := by
      have nonempty : (f.want t size).pending.take size ≠ [] := by simp [nothing, some]
      have inside :
          ((f.want t size).pending.take size).length ≤ (f.want t size).pending.length := by
        rw [length_take]
        omega
      have positive := length_pos_iff.mpr nonempty
      obtain ⟨counted', length, _⟩ := fileSkip_stream counted inside
      have fewer : size - ((f.want t size).pending.take size).length ≤ rounds := by omega
      have rest := ih counted' fewer (by rw [length_take] at *; unfold ioBufSize; omega)
      have got := GotBytes.round counted rest
      rw [getBufferLoop, if_neg nothing, peeked]
      simpa only [if_neg nonempty] using got
    obtain ⟨same, grows⟩ | ⟨same, pending, more, short⟩ := want_cases t room
    · rw [← same]
      refine round (length_pos_iff.mp ?_)
      have longer := want_longer t f size
      omega
    · refine GotBytes.atEnd ?_ ?_
      · simp only [QemuFile.stream, more, append_nil, length_take]
        omega
      rw [← same]
      by_cases empty : f.pending = []
      · have none : (f.want t size).pending.take size = [] := by simp [pending, empty]
        rw [getBufferLoop, if_neg nothing, peeked]
        simp only [if_pos none]
        exact GotBytes.nothing counted (by rw [same]; simp [QemuFile.stream, empty, more])
          (by rw [same])
      · exact round (by rwa [pending])

end

/-! ## Programs -/

/-- The same fault, or the same result with the file where the stream is. -/
def SameOutcome : Except ε (α × QemuFile) → Except ε (α × Stream) → Prop
  | .ok (a, f), .ok (b, s) => a = b ∧ f.stream = s
  | .error e, .error e' => e = e'
  | .ok _, .error _ | .error _, .ok _ => False

/-- A program reads from the buffered file what it reads from the list. -/
theorem runFile_of_supplied {t : Transport} {f : QemuFile} {seen : Nat} (counted : f.Counted)
    (known : seen ≤ f.pending.length) (disciplined : Disciplined seen p)
    (supplied : Supplied t p f) : SameOutcome (runFile t p f) (p.run f.stream) := by
  induction p generalizing f seen with
  | done a => exact ⟨rfl, rfl⟩
  | fault e => exact rfl
  | peekByte offset next ih =>
    obtain ⟨inside, small, hit, miss⟩ := disciplined
    have counted' : (f.peekByte t offset).2.Counted := by
      rw [peekByte_eq]
      exact want_counted t counted _
    have longer : f.pending.length ≤ (f.peekByte t offset).2.pending.length := by
      rw [peekByte_eq]
      exact want_longer t f _
    obtain ⟨byte, same, there⟩ | ⟨none, zero, same⟩ :=
      peekByte_stream (Nat.le_trans inside known) small
    · simp only [runFile, Reader.run, byte]
      rw [← same]
      by_cases b : (f.peekByte t offset).1 = 0
      · refine ih _ counted' (Nat.le_trans known longer) ?_ supplied
        rw [b]
        exact miss
      · exact ih _ counted' (by omega) (hit _ b) supplied
    · simp only [runFile, Reader.run, none]
      rw [← same]
      have next' := ih _ counted' (Nat.le_trans known longer) (by rw [zero]; exact miss) supplied
      rw [zero] at next' ⊢
      exact next'
  | peekBytes size offset next ih =>
    obtain ⟨whole, supplied⟩ := supplied
    change offset + size ≤ (f.want t (offset + size)).pending.length at whole
    have same := want_stream (.inl whole)
    obtain ⟨bytes, length⟩ := take_pending whole
    have longer := want_longer t f (offset + size)
    have known' : max seen (offset + size) ≤ (f.want t (offset + size)).pending.length := by omega
    simp only [runFile, Reader.run]
    rw [← same, ← bytes, length]
    simp only [Nat.lt_irrefl, decide_false, Bool.or_false]
    exact ih _ (want_counted t counted _) known' (disciplined _) supplied
  | skip size next ih =>
    obtain ⟨inside, disciplined⟩ := disciplined
    obtain ⟨counted', length, same⟩ := fileSkip_stream counted (Nat.le_trans inside known)
    have enough : size ≤ f.stream.bytes.length := by
      simp only [QemuFile.stream, length_append]
      omega
    simp only [runFile, Reader.run, if_pos enough]
    rw [← same]
    exact ih counted' (by omega) disciplined supplied
  | getByte next ih =>
    obtain ⟨counted', ⟨bs, bytes, same⟩ | ⟨none, zero, same⟩⟩ := getByte_stream t counted
    · simp only [runFile, Reader.run, bytes]
      rw [← same]
      exact ih _ counted' (Nat.zero_le _) (disciplined _) supplied
    · have next' := ih _ counted' (Nat.zero_le _) (disciplined _) supplied
      simp only [runFile, Reader.run, none]
      rw [same, zero] at next'
      simp only [none] at next'
      rw [zero]
      exact next'
  | getBytes size next ih =>
    obtain ⟨room, supplied⟩ := supplied
    obtain ⟨counted', bytes, same⟩ := getBufferLoop_stream counted (Nat.le_refl size) room
    simp only [runFile, Reader.run]
    rw [← bytes] at same ⊢
    rw [← same]
    exact ih _ counted' (Nat.zero_le _) (disciplined _) supplied
  | tell next ih | failed next ih => exact ih _ counted known (disciplined _) supplied

end QemuStm32.Savevm
