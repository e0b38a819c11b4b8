import QemuStm32.Json.Writing

/-!
# Strings of any characters

What a string reads back as after it was printed. A character above U+FFFF is printed as two
escapes, its first three bytes taken for one character and its last byte as U+FFFF.
-/

namespace QemuStm32.Json

open Ascii List Runs
open String (utf8EncodeChar)

def printable (ch : UInt8) : Prop := 0x20 ≤ ch ∧ ch ≤ 0x7e

instance (ch : UInt8) : Decidable (printable ch) := inferInstanceAs (Decidable (_ ∧ _))

/-- What a character reads back as. -/
def readBack (c : Char) : Bytes :=
  if c.toNat ≤ 0xffff then utf8EncodeChar c
  else utf8EncodeChar (Char.ofNat (c.toNat / 64)) ++
    utf8EncodeChar (Char.ofNat 0xffff)

variable {c : Char} {cs : List Char}

/-! ## Characters above U+FFFF -/

theorem char_lt (c : Char) : c.toNat < 0x110000 := by
  have valid := c.valid
  change (c.toNat < _ ∨ _ < c.toNat ∧ c.toNat < _) at valid
  omega

theorem utf8_four (h : 0xffff < c.toNat) : utf8EncodeChar c =
    [UInt8.ofNat (c.toNat / 262144 % 8 + 0xf0), UInt8.ofNat (c.toNat / 4096 % 64 + 0x80),
      UInt8.ofNat (c.toNat / 64 % 64 + 0x80), UInt8.ofNat (c.toNat % 64 + 0x80)] := by
  change (if c.toNat ≤ _ then _ else if c.toNat ≤ _ then _ else if c.toNat ≤ _ then _ else _) = _
  rw [if_neg (by omega), if_neg (by omega), if_neg (by omega)]
  rfl

theorem lead_four_spec : ∀ m < 8, UInt8.ofNat (m + 0xf0) &&& 0xe0 = 0xe0 ∧
    (UInt8.ofNat (m + 0xf0) &&& 0x0f).toUInt16 = UInt16.ofNat m := by decide

/-- A continuation byte on its own is a negative `char`. -/
theorem escapeAt_continuation {m : Nat} (h : m < 64) (c1 c2 : UInt8) :
    escapeAt (UInt8.ofNat (m + 0x80)) c1 c2 = (hexEscape 0xffff, 0) := by
  have all : ∀ m < 64, UInt8.ofNat (m + 0x80) &&& 0xe0 ≠ 0xe0 ∧
      UInt8.ofNat (m + 0x80) &&& 0xe0 ≠ 0xc0 ∧
      escapeByte (UInt8.ofNat (m + 0x80)) = hexEscape 0xffff := by decide
  obtain ⟨three, two, one⟩ := all m h
  unfold escapeAt
  rw [if_neg fun both => three both.1, if_neg fun both => two both.1, one]

theorem escapeLoop_four (h : 0xffff < c.toNat) (rest : Bytes) :
    escapeLoop 0 (utf8EncodeChar c ++ rest) =
      hexEscape (UInt16.ofNat (c.toNat / 64)) ++ hexEscape 0xffff ++ escapeLoop 0 rest := by
  have lt := char_lt c
  obtain ⟨lead, leadBits⟩ := lead_four_spec _ (Nat.mod_lt (c.toNat / 262144) (Nat.succ_pos 7))
  obtain ⟨next, nextBits⟩ := continuation_spec _ (Nat.mod_lt (c.toNat / 4096) (Nat.succ_pos 63))
  obtain ⟨third, thirdBits⟩ := continuation_spec _ (Nat.mod_lt (c.toNat / 64) (Nat.succ_pos 63))
  have bits := three_bytes_bits (n := c.toNat / 64) (by omega)
  rw [show c.toNat / 64 / 4096 % 16 = c.toNat / 262144 % 8 by omega,
    show c.toNat / 64 / 64 % 64 = c.toNat / 4096 % 64 by omega] at bits
  have one : escapeAt (UInt8.ofNat (c.toNat / 262144 % 8 + 0xf0))
      (UInt8.ofNat (c.toNat / 4096 % 64 + 0x80)) (UInt8.ofNat (c.toNat / 64 % 64 + 0x80)) =
        (hexEscape (UInt16.ofNat (c.toNat / 64)), 2) := by
    unfold escapeAt
    rw [if_pos ⟨lead, next, third⟩, leadBits, nextBits, thirdBits, bits]
  have last := escapeAt_continuation (Nat.mod_lt c.toNat (by decide))
  simp only [utf8_four h, cons_append, nil_append, escapeLoop, headD_cons, tail_cons, one, last,
    append_assoc]

/-! ## Reading back -/

theorem printsAs_readBack (nonzero : c.toNat ≠ 0) : PrintsAs c (readBack c) := by
  by_cases bmp : c.toNat ≤ 0xffff
  · rw [readBack, if_pos bmp]
    exact printsAs_bmp nonzero bmp
  have lt := char_lt c
  have code : (Char.ofNat (c.toNat / 64)).toNat = c.toNat / 64 := char_toNat (by omega) (by omega)
  have first := hexPart_value (c := Char.ofNat (c.toNat / 64)) (by omega) (by omega)
  have second : (hexPart 0xffff).value = some (utf8EncodeChar (Char.ofNat 0xffff)) :=
    hexPart_value (c := Char.ofNat 0xffff) (by decide) (by decide)
  rw [code] at first
  refine ⟨[hexPart (c.toNat / 64), hexPart 0xffff], ?_, ?_, fun rest => ?_⟩
  · simp [StrWellFormed, hexPart_wellFormed]
  · simp [strValue, first, second, readBack, bmp]
  · rw [escapeLoop_four (by omega), hexEscape_ofNat (by omega), ← hexPart_text]
    simp

/-- The first byte tells a character above U+FFFF from what it reads back as. -/
theorem readBack_first (h : 0xffff < c.toNat) (rest rest' : Bytes) :
    readBack c ++ rest ≠ utf8EncodeChar c ++ rest' := by
  have lt := char_lt c
  have code : (Char.ofNat (c.toNat / 64)).toNat = c.toNat / 64 := char_toNat (by omega) (by omega)
  rw [readBack, if_neg (by omega), utf8_four h]
  intro same
  by_cases two : c.toNat / 64 < 0x800
  · rw [utf8_two (by omega) (by omega)] at same
    have first := congrArg UInt8.toNat (cons.inj same).1
    simp only [UInt8.toNat_ofNat'] at first
    omega
  · rw [utf8_three (by omega) (by omega)] at same
    have first := congrArg UInt8.toNat (cons.inj same).1
    simp only [UInt8.toNat_ofNat'] at first
    omega

theorem flatMap_readBack_iff : cs.flatMap readBack = cs.flatMap utf8EncodeChar ↔
    ∀ c ∈ cs, c.toNat ≤ 0xffff := by
  induction cs with
  | nil => simp
  | cons c cs ih =>
    rw [forall_mem_cons, ← ih]
    by_cases bmp : c.toNat ≤ 0xffff
    · simp [readBack, bmp]
    · simp [bmp, readBack_first (Nat.not_le.mp bmp)]

/-! ## Printable characters -/

theorem hexEscape_printable (w : UInt16) : ∀ ch ∈ hexEscape w, printable ch := by
  have digit : ∀ n < 16, printable (hexDigit n) := by decide
  have each n : printable (hexDigit (n % 16)) := digit _ (Nat.mod_lt n (by decide))
  simp only [hexEscape, forall_mem_cons, each]
  decide +kernel

theorem escapeAt_printable (c0 c1 c2 : UInt8) :
    (∀ ch ∈ (escapeAt c0 c1 c2).1, printable ch) ↔ c0 ≠ 0x7f := by
  unfold escapeAt
  split
  · next three =>
    refine iff_of_true (hexEscape_printable _) ?_
    rintro rfl
    exact absurd three.1 (by decide)
  · split
    · next two =>
      refine iff_of_true (hexEscape_printable _) ?_
      rintro rfl
      exact absurd two.1 (by decide)
    · have all : ∀ n < 256, ((escapeByte (UInt8.ofNat n)).all fun ch => decide (printable ch)) =
          decide (UInt8.ofNat n ≠ 0x7f) := by decide +kernel
      have here := all c0.toNat c0.toNat_lt
      rw [UInt8.ofNat_toNat, Bool.eq_iff_iff] at here
      simpa only [all_eq_true, decide_eq_true_iff] using here

/-- The bytes that are passed over have their highest bit set. -/
theorem escapeAt_skips (c0 : UInt8) (rest : Bytes) :
    ∀ b ∈ rest.take (escapeAt c0 (rest.headD 0) (rest.tail.headD 0)).2, b &&& 0x80 ≠ 0 := by
  unfold escapeAt
  split
  · next three =>
    match rest, three with
    | [], three => exact (three.2.1 rfl).elim
    | [c1], three => exact absurd three.2.2 (by simp)
    | c1 :: c2 :: rest, three => simpa using three.2
  · split
    · next two =>
      match rest, two with
      | [], two => exact (two.2 rfl).elim
      | c1 :: rest, two => simpa using two.2
    · simp

/-- A text is printable but for the character DEL. -/
theorem escapeLoop_printable {skip : Nat} {bs : Bytes} (high : ∀ b ∈ bs.take skip, b &&& 0x80 ≠ 0) :
    (∀ ch ∈ escapeLoop skip bs, printable ch) ↔ 0x7f ∉ bs := by
  induction bs generalizing skip with
  | nil => simp [escapeLoop]
  | cons b bs ih =>
    cases skip with
    | zero =>
      rw [escapeLoop, forall_mem_append, escapeAt_printable, ih (escapeAt_skips b bs), mem_cons,
        not_or, ne_comm]
    | succ skip =>
      rw [take_succ_cons, forall_mem_cons] at high
      have ne : 0x7f ≠ b := by
        rintro rfl
        exact high.1 rfl
      rw [escapeLoop, ih high.2]
      simp [ne]

/-- Which texts are escaped and read back: those without DEL, which is printed as it is, and
without characters above U+FFFF. -/
theorem escaped_text_iff {D : Type} (st : ParserState D) (cs : List Char)
    (nonzero : ∀ c ∈ cs, c.toNat ≠ 0) (t : Token)
    (ht : t.token = toJsonString (cs.flatMap utf8EncodeChar)) :
    qstringFromEscapedStr st t = .ok (some (cs.flatMap utf8EncodeChar), st) ∧
        (∀ ch ∈ t.token, printable ch) ↔
      ∀ c ∈ cs, c.toNat ≤ 0xffff ∧ c.toNat ≠ 0x7f := by
  obtain ⟨ps, text, wf, value⟩ := toJsonString_prints fun c hc =>
    ⟨nonzero c hc, printsAs_readBack (nonzero c hc)⟩
  have noNul : 0 ∉ cs.flatMap utf8EncodeChar := by
    simpa using fun c hc => utf8_zero_notMem (nonzero c hc)
  have del : (0x7f ∉ cs.flatMap utf8EncodeChar) ↔ ∀ c ∈ cs, c.toNat ≠ 0x7f := by
    simp only [mem_flatMap, not_exists, not_and]
    refine forall₂_congr fun c _ => ⟨fun absent code => ?_, fun ne present => ?_⟩
    · have same : c = '\x7f' := Char.toNat_inj.mp code
      exact absent (same ▸ by decide)
    · have range := utf8_bytes c _ present
      simp only [UInt8.reduceToNat] at range
      omega
  have whole : (∀ ch ∈ t.token, printable ch) ↔ ∀ c ∈ cs, c.toNat ≠ 0x7f := by
    have first : ∀ b ∈ (cs.flatMap utf8EncodeChar).take 0, b &&& 0x80 ≠ 0 := by simp
    rw [← del, ← escapeLoop_printable first, ht, toJsonString, cString_of_notMem noNul]
    have quote : printable dquote := by decide
    rw [forall_mem_cons, forall_mem_append, forall_mem_singleton, and_iff_right quote,
      and_iff_left quote]
  rw [qstringFromEscapedStr_strText st (ht.trans text.symm) wf value, Except.ok.injEq,
    Prod.mk.injEq, Option.some.injEq, flatMap_readBack_iff, whole, and_iff_left rfl, ← forall₂_and]

/-- U+10000 comes back as two characters, and DEL is printed as it is. -/
theorem escaped_text_lost :
    (qstringFromEscapedStr ⟨none, none⟩
        ⟨.terminal .string, toJsonString [0xf0, 0x90, 0x80, 0x80], 0, 0⟩ :
      Except Fault (Option Bytes × ParserState Unit)) =
        .ok (some [0xd0, 0x80, 0xef, 0xbf, 0xbf], ⟨none, none⟩) ∧
      ¬ ∀ ch ∈ toJsonString [0x7f], printable ch :=
  ⟨rfl, by decide +kernel⟩

/-- Two characters of the basic plane, one of them above U+07FF. -/
theorem escaped_text_euro : qstringFromEscapedStr (⟨none, none⟩ : ParserState Unit)
      ⟨.terminal .string, toJsonString (['€', '\n'].flatMap utf8EncodeChar), 0, 0⟩ =
    .ok (some [0xe2, 0x82, 0xac, 0x0a], ⟨none, none⟩) :=
  ((escaped_text_iff _ ['€', '\n'] (by simp) _ rfl).mpr (by simp)).1

end QemuStm32.Json
