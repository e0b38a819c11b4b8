import Mathlib


/-!
# Programs that read a stream

A `Reader` takes bytes from a stream, looks ahead in it and finally has a result or
faults. Its meaning over a stream that is a list of bytes is `Reader.run`; other
sources of bytes give it a meaning of their own.

* `run_bind`: what comes after a program starts where the program stopped;
* `Taker`: programs that take bytes in order and never look ahead.
-/

namespace QemuStm32.Readers

abbrev Byte := BitVec 8

inductive Reader (ε α : Type)
  | done (a : α)
  | fault (e : ε)
  /-- A byte that is not taken; zero behind the end. -/
  | peekByte (offset : Nat) (next : Byte → Reader ε α)
  /-- Bytes that are not taken, fewer at the end. -/
  | peekBytes (size offset : Nat) (next : List Byte → Reader ε α)
  /-- Takes bytes, or none when there are fewer. -/
  | skip (size : Nat) (next : Reader ε α)
  /-- Takes a byte; zero at the end. -/
  | getByte (next : Byte → Reader ε α)
  /-- Takes bytes, fewer at the end. -/
  | getBytes (size : Nat) (next : List Byte → Reader ε α)
  /-- The number of bytes taken so far. -/
  | tell (next : Nat → Reader ε α)
  /-- Whether a read ran into the end. -/
  | failed (next : Bool → Reader ε α)

structure Stream where
  bytes : List Byte
  taken : Nat
  failed : Bool
  deriving DecidableEq, Repr

namespace Reader

variable {ε α β : Type}

def bind (p : Reader ε α) (f : α → Reader ε β) : Reader ε β :=
  match p with
  | .done a => f a
  | .fault e => .fault e
  | .peekByte offset next => .peekByte offset fun b => (next b).bind f
  | .peekBytes size offset next => .peekBytes size offset fun bs => (next bs).bind f
  | .skip size next => .skip size (next.bind f)
  | .getByte next => .getByte fun b => (next b).bind f
  | .getBytes size next => .getBytes size fun bs => (next bs).bind f
  | .tell next => .tell fun n => (next n).bind f
  | .failed next => .failed fun b => (next b).bind f

instance : Monad (Reader ε) where
  pure := .done
  bind := bind

def getBe32 : Reader ε (BitVec 32) := do
  let b0 ← getByte .done
  let b1 ← getByte .done
  let b2 ← getByte .done
  let b3 ← getByte .done
  pure (b0 ++ b1 ++ b2 ++ b3)

/-- Reading from a list. -/
def run : Reader ε α → Stream → Except ε (α × Stream)
  | .done a, s => .ok (a, s)
  | .fault e, _ => .error e
  | .peekByte offset next, s =>
    match s.bytes[offset]? with
    | some b => (next b).run s
    | none => (next 0).run { s with failed := true }
  | .peekBytes size offset next, s =>
    let bs := (s.bytes.drop offset).take size
    (next bs).run { s with failed := s.failed || decide (bs.length < size) }
  | .skip size next, s =>
    if size ≤ s.bytes.length then
      next.run { s with bytes := s.bytes.drop size, taken := s.taken + size }
    else next.run s
  | .getByte next, s =>
    match s.bytes with
    | b :: bs => (next b).run { s with bytes := bs, taken := s.taken + 1 }
    | [] => (next 0).run { s with failed := true }
  | .getBytes size next, s =>
    let bs := s.bytes.take size
    (next bs).run ⟨s.bytes.drop size, s.taken + bs.length, s.failed || decide (bs.length < size)⟩
  | .tell next, s => (next s.taken).run s
  | .failed next, s => (next s.failed).run s

@[simp] theorem pure_eq (a : α) : (pure a : Reader ε α) = .done a := rfl

theorem bind_eq (p : Reader ε α) (f : α → Reader ε β) : (p >>= f) = p.bind f := rfl

@[simp] theorem run_done (a : α) (s : Stream) : (done a : Reader ε α).run s = .ok (a, s) := rfl

theorem run_bind (p : Reader ε α) (f : α → Reader ε β) (s : Stream) :
    (p >>= f).run s = p.run s >>= fun r => (f r.1).run r.2 := by
  rw [bind_eq]
  induction p generalizing s with
  | done a | fault e => rfl
  | peekByte offset next ih =>
    simp only [bind, run]
    split
    · exact ih _ s
    · exact ih 0 _
  | skip size next ih =>
    simp only [bind, run]
    split <;> exact ih _
  | getByte next ih =>
    simp only [bind, run]
    split
    · exact ih _ _
    · exact ih 0 _
  | peekBytes size offset next ih | getBytes size next ih | tell next ih | failed next ih =>
    exact ih _ _

/-- A program that goes on after one that ended. -/
theorem run_bind_ok {p : Reader ε α} {f : α → Reader ε β} {s t : Stream} {a : α}
    (h : p.run s = .ok (a, t)) : (p >>= f).run s = (f a).run t := by
  rw [run_bind, h]
  rfl

theorem run_pure_bind (a : α) (f : α → Reader ε β) (s : Stream) :
    (pure a >>= f).run s = (f a).run s := rfl

theorem run_getByte (b : Byte) (bs : List Byte) (taken : Nat) (failed : Bool) :
    (getByte .done : Reader ε Byte).run ⟨b :: bs, taken, failed⟩ =
      .ok (b, ⟨bs, taken + 1, failed⟩) := rfl

end Reader

/-! ## Programs that do not look ahead -/

inductive Taker (ε α : Type)
  | done (a : α)
  | fault (e : ε)
  | getByte (next : Byte → Taker ε α)
  | getBytes (size : Nat) (next : List Byte → Taker ε α)
  | tell (next : Nat → Taker ε α)
  | failed (next : Bool → Taker ε α)

def Taker.toReader {ε α : Type} : Taker ε α → Reader ε α
  | .done a => .done a
  | .fault e => .fault e
  | .getByte next => .getByte fun b => (next b).toReader
  | .getBytes size next => .getBytes size fun bs => (next bs).toReader
  | .tell next => .tell fun n => (next n).toReader
  | .failed next => .failed fun b => (next b).toReader

/-- Takes single bytes and goes on with all of them. -/
def Taker.bytes {ε α : Type} : Nat → (List Byte → Taker ε α) → Taker ε α
  | 0, next => next []
  | n + 1, next => .getByte fun b => bytes n fun bs => next (b :: bs)

/-! ## Writing -/

/-- The four bytes of a word, the high one first. -/
def be32 (v : BitVec 32) : List Byte :=
  [v.extractLsb' 24 8, v.extractLsb' 16 8, v.extractLsb' 8 8, v.extractLsb' 0 8]

theorem be32_length (v : BitVec 32) : (be32 v).length = 4 := rfl

namespace Reader

variable {ε : Type}

theorem run_getBe32 (v : BitVec 32) (bs : List Byte) (taken : Nat) (failed : Bool) :
    (getBe32 : Reader ε (BitVec 32)).run ⟨be32 v ++ bs, taken, failed⟩ =
      .ok (v, ⟨bs, taken + 4, failed⟩) := by
  have bytes : v.extractLsb' 24 8 ++ v.extractLsb' 16 8 ++ v.extractLsb' 8 8 ++
      v.extractLsb' 0 8 = v := by
    grind
  unfold getBe32 be32
  simp only [List.cons_append, List.nil_append]
  rw [run_bind_ok (run_getByte _ _ _ _), run_bind_ok (run_getByte _ _ _ _),
    run_bind_ok (run_getByte _ _ _ _), run_bind_ok (run_getByte _ _ _ _), bytes]
  rfl

theorem run_getBytes {bs : List Byte} {size : Nat} (length : bs.length = size)
    (rest : List Byte) (taken : Nat) (failed : Bool) :
    (getBytes size .done : Reader ε (List Byte)).run ⟨bs ++ rest, taken, failed⟩ =
      .ok (bs, ⟨rest, taken + size, failed⟩) := by
  subst length
  simp [run]

end Reader

end QemuStm32.Readers
