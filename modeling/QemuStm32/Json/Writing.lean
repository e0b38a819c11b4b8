import QemuStm32.Json.Decoding
import QemuStm32.Json.Printer

/-!
# What the printer writes

The text of an object is the text of a tree of the grammar, whose value is the
object again: a dictionary with the same entries in some order, a boolean with
the same truth value, everything else as it was.
-/

namespace QemuStm32.Json

open Ascii Runs List
open String (utf8EncodeChar)

/-! ## Objects that print -/

/-- UTF-8 without NUL and without characters above U+FFFF. -/
def BmpText (s : Bytes) : Prop :=
  ∃ cs : List Char, (∀ c ∈ cs, c.toNat ≠ 0 ∧ c.toNat ≤ 0xffff) ∧
    s = cs.flatMap utf8EncodeChar

section
variable {D : Type}

/-- No number with a fraction, texts in the basic plane, and no key twice. -/
inductive QObject.Printable : QObject D → Prop
  | qint (value : Int64) : Printable (.qint value)
  | qbool (value : Int) : Printable (.qbool value)
  | qstring {s : Bytes} (text : BmpText s) : Printable (.qstring s)
  | qdict {entries : List (Bytes × QObject D)} (distinct : (entries.map Prod.fst).Nodup)
      (keys : ∀ e ∈ entries, BmpText e.1) (values : ∀ e ∈ entries, Printable e.2) :
      Printable (.qdict entries)
  | qlist {items : List (QObject D)} (values : ∀ o ∈ items, Printable o) : Printable (.qlist items)

/-- The same object: dictionaries are compared as maps, booleans as truth values. -/
inductive Same : QObject D → QObject D → Prop
  | qint (value : Int64) : Same (.qint value) (.qint value)
  | qfloat (value : D) : Same (.qfloat value) (.qfloat value)
  | qbool {a b : Int} (truth : a = 0 ↔ b = 0) : Same (.qbool a) (.qbool b)
  | qstring (s : Bytes) : Same (.qstring s) (.qstring s)
  | qdict {es fs : List (Bytes × QObject D)}
      (entries : ∀ key, Option.Rel Same (qdictGet es key) (qdictGet fs key)) :
      Same (.qdict es) (.qdict fs)
  | qlist {os ps : List (QObject D)} (items : List.Forall₂ Same os ps) :
      Same (.qlist os) (.qlist ps)

mutual

/-- How deep dictionaries nest, then lists. -/
def QObject.depth : QObject D → Nat × Nat
  | .qdict entries => ((entriesDepth entries).1 + 1, (entriesDepth entries).2)
  | .qlist items => ((itemsDepth items).1, (itemsDepth items).2 + 1)
  | .qint _ | .qfloat _ | .qbool _ | .qstring _ => (0, 0)

def entriesDepth : List (Bytes × QObject D) → Nat × Nat
  | [] => (0, 0)
  | (_, obj) :: entries =>
    (max obj.depth.1 (entriesDepth entries).1, max obj.depth.2 (entriesDepth entries).2)

def itemsDepth : List (QObject D) → Nat × Nat
  | [] => (0, 0)
  | obj :: items => (max obj.depth.1 (itemsDepth items).1, max obj.depth.2 (itemsDepth items).2)

end

mutual

/-- The bytes of all tokens of the text. -/
def QObject.tokenBytes : QObject D → Nat
  | .qint value => (toJsonInt value).length
  | .qfloat _ => 0
  | .qbool value => if value ≠ 0 then 4 else 5
  | .qstring s => (toJsonString s).length
  | .qdict entries => 1 + entriesBytes entries
  | .qlist items => 1 + itemsBytes items

/-- With the commas between the entries or the closing brace. -/
def entriesBytes : List (Bytes × QObject D) → Nat
  | [] => 1
  | [(key, obj)] => (toJsonString key).length + 1 + obj.tokenBytes + 1
  | (key, obj) :: entries =>
    (toJsonString key).length + 1 + obj.tokenBytes + 1 + entriesBytes entries

def itemsBytes : List (QObject D) → Nat
  | [] => 1
  | [obj] => obj.tokenBytes + 1
  | obj :: items => obj.tokenBytes + 1 + itemsBytes items

end

end

/-! ## Strings -/

variable {n m : Nat} {c : Char} {b : UInt8} {d : Doc} {text before after rest name lead : Bytes}

theorem hexDigit_spec : ∀ n < 16, isHexDigit (hexDigit n) = true ∧ hexValue (hexDigit n) = n := by
  decide

/-- The part of a string that is written as a hexadecimal escape. -/
def hexPart (n : Nat) : StrPart :=
  .hex (hexDigit (n / 4096 % 16)) (hexDigit (n / 256 % 16)) (hexDigit (n / 16 % 16))
    (hexDigit (n % 16))

theorem hexPart_wellFormed (n : Nat) : (hexPart n).WellFormed :=
  have digit m := (hexDigit_spec (m % 16) (Nat.mod_lt m (by decide))).1
  ⟨digit _, digit _, digit _, digit n⟩

theorem hexPart_text (w : UInt16) : (hexPart w.toNat).text = hexEscape w := rfl

theorem hexEscape_ofNat (h : n ≤ 0xffff) : hexEscape (UInt16.ofNat n) = (hexPart n).text := by
  rw [← hexPart_text, UInt16.toNat_ofNat', Nat.mod_eq_of_lt (Nat.lt_succ_of_le h)]

theorem hexPart_value (nonzero : c.toNat ≠ 0) (bmp : c.toNat ≤ 0xffff) :
    (hexPart c.toNat).value = some (utf8EncodeChar c) := by
  have code : hexCode (hexDigit (c.toNat / 4096 % 16)) (hexDigit (c.toNat / 256 % 16))
      (hexDigit (c.toNat / 16 % 16)) (hexDigit (c.toNat % 16)) = c.toNat := by
    have digit m := (hexDigit_spec (m % 16) (Nat.mod_lt m (by decide))).2
    unfold hexCode
    rw [digit, digit, digit, digit]
    omega
  have scalar : ¬ (0xd800 ≤ c.toNat ∧ c.toNat < 0xe000) := by
    have valid := c.valid
    change (c.toNat < _ ∨ _ < c.toNat ∧ _) at valid
    omega
  simp only [hexPart, StrPart.value, code]
  rw [if_neg (by omega), Char.ofNat_toNat]

/-- A character is written as `p`. -/
structure WrittenAs (c : Char) (p : StrPart) : Prop where
  wellFormed : p.WellFormed
  value : p.value = some (utf8EncodeChar c)
  text : ∀ rest, escapeLoop 0 (utf8EncodeChar c ++ rest) = p.text ++ escapeLoop 0 rest

/-- A byte below 0x80 is written on its own. -/
theorem escapeAt_ascii (h : b.toNat < 0x80) (c1 c2 : UInt8) :
    escapeAt b c1 c2 = (escapeByte b, 0) := by
  have all : ∀ m : Fin 128, UInt8.ofNat m &&& 0xe0 ≠ 0xe0 ∧ UInt8.ofNat m &&& 0xe0 ≠ 0xc0 := by
    decide
  have marks := all ⟨b.toNat, h⟩
  rw [UInt8.ofNat_toNat] at marks
  unfold escapeAt
  rw [if_neg fun both => marks.1 both.1, if_neg fun both => marks.2 both.1]

theorem written_of_byte {p : StrPart} (hb : b.toNat < 0x80)
    (encoded : utf8EncodeChar c = [b]) (wellFormed : p.WellFormed)
    (value : p.value = some [b]) (text : p.text = escapeByte b) : WrittenAs c p := by
  refine ⟨wellFormed, by rw [value, encoded], fun rest => ?_⟩
  rw [encoded, singleton_append, escapeLoop, escapeAt_ascii hb, text]

/-- The codes that have an escape of their own. -/
def shortCodes : List Nat := [0x22, 0x5c, 0x08, 0x0c, 0x0a, 0x0d, 0x09]

theorem escapeByte_short : shortCodes.all fun n => [dquote, backslash, slash, 'b'.toUInt8,
    'f'.toUInt8, 'n'.toUInt8, 'r'.toUInt8, 't'.toUInt8].any fun e => decide
      (escapedByte e = some (UInt8.ofNat n) ∧ [backslash, e] = escapeByte (UInt8.ofNat n)) := by
  decide

theorem written_ascii (nonzero : c.toNat ≠ 0) (h : c.toNat < 0x80) : ∃ p, WrittenAs c p := by
  have encoded : utf8EncodeChar c = [UInt8.ofNat c.toNat] := by
    exact if_pos (Nat.lt_succ_iff.mp h)
  have byte : (UInt8.ofNat c.toNat).toNat = c.toNat := by
    rw [UInt8.toNat_ofNat']
    omega
  have small : (UInt8.ofNat c.toNat).toNat < 0x80 := by omega
  by_cases special : c.toNat ∈ shortCodes
  · obtain ⟨e, letter, both⟩ := any_eq_true.mp (all_eq_true.mp escapeByte_short _ special)
    obtain ⟨value, text⟩ := of_decide_eq_true both
    refine ⟨.short e, written_of_byte small encoded letter ?_ text⟩
    rw [StrPart.value, value]
    rfl
  have all : ∀ m : Fin 128, m.val ∉ shortCodes → escapeByte (UInt8.ofNat m) =
      if m.val < 0x20 then hexEscape (UInt16.ofNat m) else [UInt8.ofNat m] := by decide
  have escaped := all ⟨c.toNat, h⟩ special
  by_cases control : c.toNat < 0x20
  · rw [if_pos control] at escaped
    refine ⟨hexPart c.toNat, written_of_byte small encoded (hexPart_wellFormed _) ?_ ?_⟩
    · rw [hexPart_value nonzero (by omega), encoded]
    · rw [escaped, hexEscape_ofNat (by omega)]
  · rw [if_neg control] at escaped
    simp only [shortCodes, mem_cons, not_mem_nil, or_false, not_or] at special
    refine ⟨.raw c, written_of_byte small encoded ⟨by omega, special.1, special.2.1⟩ ?_ ?_⟩
    · rw [StrPart.value, encoded]
    · rw [escaped, StrPart.text, encoded]

/-- A character of several bytes is written as a hexadecimal escape. -/
theorem written_hex {c : Char} (low : 0x80 ≤ c.toNat) (high : c.toNat ≤ 0xffff)
    (text : ∀ rest, escapeLoop 0 (utf8EncodeChar c ++ rest) =
      hexEscape (UInt16.ofNat c.toNat) ++ escapeLoop 0 rest) : WrittenAs c (hexPart c.toNat) := by
  refine ⟨hexPart_wellFormed _, hexPart_value (by omega) high, fun rest => ?_⟩
  rw [text, hexEscape_ofNat high]

theorem continuation_spec : ∀ m < 64, UInt8.ofNat (m + 0x80) &&& 0x80 ≠ 0 ∧
    (UInt8.ofNat (m + 0x80) &&& 0x3f).toUInt16 = UInt16.ofNat m := by decide

theorem lead_two_spec : ∀ m < 32, UInt8.ofNat (m + 0xc0) &&& 0xe0 = 0xc0 ∧
    (UInt8.ofNat (m + 0xc0) &&& 0x1f).toUInt16 = UInt16.ofNat m := by decide

theorem lead_three_spec : ∀ m < 16, UInt8.ofNat (m + 0xe0) &&& 0xe0 = 0xe0 ∧
    (UInt8.ofNat (m + 0xe0) &&& 0x0f).toUInt16 = UInt16.ofNat m := by decide

theorem two_bytes_bits (h : n < 0x800) :
    (UInt16.ofNat (n / 64 % 32) <<< 6) ||| UInt16.ofNat (n % 64) = UInt16.ofNat n := by
  rw [← UInt16.toNat_inj]
  change (n / 64 % 32 % 65536) <<< 6 % 65536 ||| n % 64 % 65536 = n % 65536
  rw [Nat.mod_eq_of_lt (show n / 64 % 32 < 65536 by omega),
    Nat.mod_eq_of_lt (by rw [Nat.shiftLeft_eq]; omega),
    or_eq_add 6 (by omega)]
  omega

theorem three_bytes_bits (h : n ≤ 0xffff) :
    (UInt16.ofNat (n / 4096 % 16) <<< 12) ||| (UInt16.ofNat (n / 64 % 64) <<< 6) |||
      UInt16.ofNat (n % 64) = UInt16.ofNat n := by
  rw [← UInt16.toNat_inj]
  change ((n / 4096 % 16 % 65536) <<< 12 % 65536 ||| (n / 64 % 64 % 65536) <<< 6 % 65536) |||
    n % 64 % 65536 = n % 65536
  rw [Nat.mod_eq_of_lt (show n / 4096 % 16 < 65536 by omega),
    Nat.mod_eq_of_lt (show n / 64 % 64 < 65536 by omega),
    Nat.mod_eq_of_lt (by rw [Nat.shiftLeft_eq]; omega),
    Nat.mod_eq_of_lt (show (n / 64 % 64) <<< 6 < 65536 by rw [Nat.shiftLeft_eq]; omega),
    Nat.or_assoc, or_eq_add 6 (by omega), or_eq_add 12 (by omega)]
  omega

theorem utf8_two (low : 0x80 ≤ c.toNat) (high : c.toNat < 0x800) : utf8EncodeChar c =
    [UInt8.ofNat (c.toNat / 64 % 32 + 0xc0), UInt8.ofNat (c.toNat % 64 + 0x80)] := by
  change (if c.toNat ≤ _ then _ else if c.toNat ≤ _ then _ else _) = _
  rw [if_neg (by omega), if_pos (by omega)]
  rfl

theorem utf8_three (low : 0x800 ≤ c.toNat) (high : c.toNat ≤ 0xffff) : utf8EncodeChar c =
    [UInt8.ofNat (c.toNat / 4096 % 16 + 0xe0), UInt8.ofNat (c.toNat / 64 % 64 + 0x80),
      UInt8.ofNat (c.toNat % 64 + 0x80)] := by
  change (if c.toNat ≤ _ then _ else if c.toNat ≤ _ then _ else if c.toNat ≤ _ then _ else _) = _
  rw [if_neg (by omega), if_neg (by omega), if_pos (by omega)]
  rfl

theorem written_two (low : 0x80 ≤ c.toNat) (high : c.toNat < 0x800) : ∃ p, WrittenAs c p := by
  refine ⟨_, written_hex low (by omega) fun rest => ?_⟩
  obtain ⟨lead, leadBits⟩ := lead_two_spec _ (Nat.mod_lt (c.toNat / 64) (by decide))
  obtain ⟨next, nextBits⟩ := continuation_spec _ (Nat.mod_lt c.toNat (by decide))
  have noThree : ¬ (UInt8.ofNat (c.toNat / 64 % 32 + 0xc0) &&& 0xe0 = 0xe0) := by
    rw [lead]
    decide
  have one : escapeAt (UInt8.ofNat (c.toNat / 64 % 32 + 0xc0)) (UInt8.ofNat (c.toNat % 64 + 0x80))
      (rest.headD 0) = (hexEscape (UInt16.ofNat c.toNat), 1) := by
    unfold escapeAt
    rw [if_neg fun all => noThree all.1, if_pos ⟨lead, next⟩, leadBits, nextBits,
      two_bytes_bits high]
  simp only [utf8_two low high, cons_append, nil_append, escapeLoop, headD_cons, tail_cons, one]

theorem written_three (low : 0x800 ≤ c.toNat) (high : c.toNat ≤ 0xffff) : ∃ p, WrittenAs c p := by
  refine ⟨_, written_hex (by omega) high fun rest => ?_⟩
  obtain ⟨lead, leadBits⟩ := lead_three_spec _ (Nat.mod_lt (c.toNat / 4096) (by decide))
  obtain ⟨next, nextBits⟩ := continuation_spec _ (Nat.mod_lt (c.toNat / 64) (by decide))
  obtain ⟨last, lastBits⟩ := continuation_spec _ (Nat.mod_lt c.toNat (by decide))
  have one : escapeAt (UInt8.ofNat (c.toNat / 4096 % 16 + 0xe0))
      (UInt8.ofNat (c.toNat / 64 % 64 + 0x80)) (UInt8.ofNat (c.toNat % 64 + 0x80)) =
        (hexEscape (UInt16.ofNat c.toNat), 2) := by
    unfold escapeAt
    rw [if_pos ⟨lead, next, last⟩, leadBits, nextBits, lastBits, three_bytes_bits high]
  simp only [utf8_three low high, cons_append, nil_append, escapeLoop, headD_cons, tail_cons, one]

theorem written_bmp (nonzero : c.toNat ≠ 0) (bmp : c.toNat ≤ 0xffff) : ∃ p, WrittenAs c p := by
  by_cases one : c.toNat < 0x80
  · exact written_ascii nonzero one
  · by_cases two : c.toNat < 0x800
    · exact written_two (by omega) two
    · exact written_three (by omega) bmp

theorem strValue_append {ps qs : List StrPart} {a b : Bytes} (h : strValue ps = some a)
    (h' : strValue qs = some b) : strValue (ps ++ qs) = some (a ++ b) := by
  induction ps generalizing a with
  | nil =>
    cases h
    exact h'
  | cons p ps ih =>
    unfold strValue at h
    split at h
    · next first rest hp hrest =>
      cases h
      simp [strValue, hp, ih hrest]
    · cases h

/-- Printing the character gives parts of a string that denote `back`. -/
def PrintsAs (c : Char) (back : Bytes) : Prop :=
  ∃ ps, StrWellFormed ps ∧ strValue ps = some back ∧
    ∀ rest, escapeLoop 0 (utf8EncodeChar c ++ rest) =
      ps.flatMap StrPart.text ++ escapeLoop 0 rest

theorem printsAs_bmp (nonzero : c.toNat ≠ 0) (bmp : c.toNat ≤ 0xffff) :
    PrintsAs c (utf8EncodeChar c) := by
  obtain ⟨p, hp⟩ := written_bmp nonzero bmp
  refine ⟨[p], by simpa [StrWellFormed] using hp.wellFormed, ?_, fun rest => ?_⟩
  · simp [strValue, hp.value]
  · simp [hp.text]

theorem toJsonString_prints {back : Char → Bytes} {cs : List Char}
    (h : ∀ c ∈ cs, c.toNat ≠ 0 ∧ PrintsAs c (back c)) :
    ∃ ps, strText ps = toJsonString (cs.flatMap utf8EncodeChar) ∧ StrWellFormed ps ∧
      strValue ps = some (cs.flatMap back) := by
  have noNul : 0 ∉ cs.flatMap utf8EncodeChar := by
    simpa using fun c hc => utf8_zero_notMem (h c hc).1
  rw [toJsonString, cString_of_notMem noNul]
  clear noNul
  induction cs with
  | nil => exact ⟨[], rfl, forall_mem_nil _, rfl⟩
  | cons c cs ih =>
    obtain ⟨⟨-, ps, wf, value, text⟩, rest⟩ := forall_mem_cons.mp h
    obtain ⟨qs, texts, wfs, values⟩ := ih rest
    refine ⟨ps ++ qs, ?_, forall_mem_append.mpr ⟨wf, wfs⟩, strValue_append value values⟩
    have texts := append_cancel_right (cons.inj texts).2
    rw [strText, flatMap_append, flatMap_cons, text, texts]

/-- A text in the basic plane is written as a string of the grammar that denotes it. -/
theorem toJsonString_parts {s : Bytes} (h : BmpText s) :
    ∃ parts, strText parts = toJsonString s ∧ StrWellFormed parts ∧ strValue parts = some s := by
  obtain ⟨cs, hcs, rfl⟩ := h
  exact toJsonString_prints fun c hc => ⟨(hcs c hc).1, printsAs_bmp (hcs c hc).1 (hcs c hc).2⟩

/-! ## Integers -/

theorem decimal_digit : ∀ d < 10, isDigit (zero + UInt8.ofNat d) = true ∧
    (zero + UInt8.ofNat d - zero).toNat = d ∧ (zero + UInt8.ofNat d = zero → d = 0) := by
  decide

theorem digitsValue_decimal (n : Nat) : digitsValue (decimal n) = n := by
  unfold decimal
  split
  · next h =>
    subst h
    decide
  have digits : ∀ d ∈ Nat.digits 10 n, d < 10 := fun d => Nat.digits_lt_base (by decide)
  have value : ∀ ds : List Nat, (∀ d ∈ ds, d < 10) →
      digitsValue (ds.reverse.map fun d => zero + UInt8.ofNat d) = Nat.ofDigits 10 ds := by
    intro ds hds
    induction ds with
    | nil => rfl
    | cons d ds ih =>
      have one := (decimal_digit d (hds d mem_cons_self)).2.1
      have rest := ih fun e he => hds e (.tail _ he)
      simp only [digitsValue] at rest ⊢
      rw [reverse_cons, map_append, foldl_append]
      simp only [map_cons, map_nil, foldl_cons, foldl_nil, one, Nat.ofDigits_cons]
      omega
  rw [value _ digits, Nat.ofDigits_digits]

theorem decimal_digits (n : Nat) : DigitRun (decimal n) := by
  unfold decimal
  split
  · exact digitRun_of_all rfl (by decide)
  · next h =>
    refine ⟨by simpa [Nat.digits_eq_nil_iff_eq_zero] using h, fun ch hch => ?_⟩
    obtain ⟨d, hd, rfl⟩ := mem_map.mp hch
    exact (decimal_digit d (Nat.digits_lt_base (by decide) (mem_reverse.mp hd))).1

/-- No leading zero. -/
theorem decimal_leading (n : Nat) (h : (decimal n).head? = some zero) : decimal n = [zero] := by
  unfold decimal at h ⊢
  split
  · rfl
  next nonzero =>
  rw [if_neg nonzero, head?_map, head?_reverse,
    getLast?_eq_getLast_of_ne_nil (Nat.digits_ne_nil_iff_ne_zero.mpr nonzero)] at h
  have first := Nat.getLast_digit_ne_zero 10 nonzero
  have small : (Nat.digits 10 n).getLast (Nat.digits_ne_nil_iff_ne_zero.mpr nonzero) < 10 :=
    Nat.digits_lt_base (by decide) (getLast_mem _)
  exact absurd ((decimal_digit _ small).2.2 (Option.some.inj h)) first

/-- The number that a QInt is written as. -/
def intNumber (value : Int64) : Number :=
  ⟨decide (value < 0), decimal value.toInt.natAbs, none, none⟩

theorem intNumber_wellFormed (value : Int64) : (intNumber value).WellFormed :=
  ⟨decimal_digits _, decimal_leading _, by rintro _ ⟨⟩, by rintro _ ⟨⟩⟩

theorem intNumber_text (value : Int64) : (intNumber value).text = toJsonInt value := by
  unfold Number.text toJsonInt intNumber
  by_cases h : value < 0 <;> simp [h]

theorem intNumber_value {D : Type} (lib : FloatLib D) (value : Int64) :
    (intNumber value).value lib = some (.qint value) := by
  have toInt : (intNumber value).toInt = value.toInt := by
    unfold Number.toInt intNumber
    simp only [digitsValue_decimal, decide_eq_true_eq, Int64.lt_iff_toInt_lt]
    have zero : (0 : Int64).toInt = 0 := rfl
    split <;> omega
  have low := Int64.minValue_le_toInt value
  have high := Int64.toInt_le value
  unfold Number.value
  have integer : (intNumber value).isInteger = true := rfl
  rw [toInt, if_pos integer, if_pos ⟨low, high⟩, Int64.ofInt_toInt]

/-! ## Objects and arrays -/

theorem blank_space {ws : Bytes} (h : ws = [] ∨ ws = [space]) {pretty : Bool} {indent : Nat}
    (room : 4 * indent + 2 ≤ maxTokenSize) : Blank (ws ++ lineBreak pretty indent) := by
  have white : ∀ ch ∈ ws ++ lineBreak pretty indent, ch = space ∨ ch = newline := by
    intro ch hch
    rcases mem_append.mp hch with hch | hch
    · rcases h with rfl | rfl
      · cases hch
      · exact .inl (mem_singleton.mp hch)
    · unfold lineBreak at hch
      split at hch
      · rcases mem_cons.mp hch with rfl | hch
        · exact .inr rfl
        · exact .inl (eq_of_mem_replicate hch)
      · cases hch
  refine ⟨fun ch hch => ?_, ?_⟩
  · rcases white ch hch with rfl | rfl <;> decide
  have short : ws.length ≤ 1 := by rcases h with rfl | rfl <;> decide
  rw [length_append]
  unfold lineBreak
  split
  · rw [length_cons, length_replicate]
    omega
  · rw [length_nil]
    omega

theorem kindsSize_cons (k : Kind) (ks : List Kind) :
    kindsSize (k :: ks) = k.2.length + kindsSize ks :=
  rfl

theorem kindsSize_append (ks ks' : List Kind) :
    kindsSize (ks ++ ks') = kindsSize ks + kindsSize ks' := by
  simp [kindsSize]

section
variable {D : Type} {lib : FloatLib D}

/-- The object is written as the tree `d`. -/
structure Written (lib : FloatLib D) (obj : QObject D) (text : Bytes) (d : Doc) : Prop where
  text : d.text = text
  wellFormed : d.WellFormed
  noZeroExponent : d.NoZeroExponent
  depth : d.depth = obj.depth
  size : kindsSize d.kinds = obj.tokenBytes
  value : ∃ v, d.value lib = some v ∧ Same obj v

/-- The objects are written as the inside of an array. -/
structure WrittenItems (lib : FloatLib D) (objs : List (QObject D)) (text : Bytes) (its : Items) :
    Prop where
  text : its.text = text
  wellFormed : its.WellFormed
  noZeroExponent : its.NoZeroExponent
  depth : its.depth = itemsDepth objs
  size : kindsSize its.kinds = itemsBytes objs
  values : ∃ vs, its.values lib = some vs ∧ List.Forall₂ Same objs vs

/-- The dictionary that the pairs make, put one after another. -/
def putAll (dict : List (Bytes × QObject D)) (es : List (Bytes × QObject D)) :
    List (Bytes × QObject D) :=
  es.foldl (fun dict e => qdictPutObj dict e.1 e.2) dict

/-- The entries are written as the inside of an object. -/
structure WrittenMembers (lib : FloatLib D) (es : List (Bytes × QObject D)) (text : Bytes)
    (ms : Members) : Prop where
  text : ms.text = text
  wellFormed : ms.WellFormed
  noZeroExponent : ms.NoZeroExponent
  depth : ms.depth = entriesDepth es
  size : kindsSize ms.kinds = entriesBytes es
  entries : ∃ vs, List.Forall₂ (fun e f => e.1 = f.1 ∧ Same e.2 f.2) es vs ∧
    ∀ dict, ms.entries lib dict = some (putAll dict vs)

variable {obj o : QObject D} {objs : List (QObject D)} {key : Key} {e : Bytes × QObject D}
  {es fs : List (Bytes × QObject D)}

section
variable (h : Written lib obj text d)
include h

theorem WrittenItems.last (hb : Blank before) (ha : Blank after) :
    WrittenItems lib [obj] (before ++ text ++ after ++ [rbracket]) (.last before d after) := by
  obtain ⟨v, hv, same⟩ := h.value
  refine ⟨by rw [Items.text, h.text], ⟨hb, h.wellFormed, ha⟩, h.noZeroExponent, ?_, ?_,
    [v], by rw [Items.values, hv]; rfl, .cons same .nil⟩
  · simp [Items.depth, itemsDepth, h.depth]
  · rw [Items.kinds, kindsSize_append, h.size]
    rfl

theorem WrittenItems.more {its : Items}
    (h' : WrittenItems lib (o :: objs) rest its) (hb : Blank before) (ha : Blank after) :
    WrittenItems lib (obj :: o :: objs) (before ++ text ++ after ++ comma :: rest)
      (.more before d after its) := by
  obtain ⟨v, hv, same⟩ := h.value
  obtain ⟨vs, hvs, all⟩ := h'.values
  refine ⟨by rw [Items.text, h.text, h'.text], ⟨hb, h.wellFormed, ha, h'.wellFormed⟩,
    ⟨h.noZeroExponent, h'.noZeroExponent⟩, ?_, ?_, v :: vs, by simp only [Items.values, hv, hvs],
    .cons same all⟩
  · rw [Items.depth, h.depth, h'.depth]
    rfl
  · have bytes : itemsBytes (obj :: o :: objs) = obj.tokenBytes + 1 + itemsBytes (o :: objs) := rfl
    rw [Items.kinds, kindsSize_append, kindsSize_cons, h.size, h'.size]
    simp only [operatorKind, length_singleton]
    omega

theorem WrittenMembers.last (hk : key.WellFormed) (hname : strValue key.parts = some name)
    (htext : strText key.parts = toJsonString name) (ha : Blank after) :
    WrittenMembers lib [(name, obj)] (key.text ++ text ++ after ++ [rbrace])
      (.last key d after) := by
  obtain ⟨v, hv, same⟩ := h.value
  refine ⟨by rw [Members.text, h.text], ⟨hk, h.wellFormed, ha⟩, h.noZeroExponent, ?_, ?_,
    [(name, v)], .cons ⟨rfl, same⟩ .nil, fun dict => by simp only [Members.entries, hname, hv]; rfl⟩
  · simp [Members.depth, entriesDepth, h.depth]
  · rw [Members.kinds, kindsSize_cons, kindsSize_cons, kindsSize_append, h.size]
    simp only [stringKind, htext, operatorKind, length_singleton, entriesBytes]
    exact (Nat.add_assoc _ _ _).symm

theorem WrittenMembers.more {ms : Members} (h' : WrittenMembers lib (e :: es) rest ms)
    (hk : key.WellFormed) (hname : strValue key.parts = some name)
    (htext : strText key.parts = toJsonString name) (ha : Blank after) :
    WrittenMembers lib ((name, obj) :: e :: es) (key.text ++ text ++ after ++ comma :: rest)
      (.more key d after ms) := by
  obtain ⟨v, hv, same⟩ := h.value
  obtain ⟨vs, all, entries⟩ := h'.entries
  refine ⟨by rw [Members.text, h.text, h'.text], ⟨hk, h.wellFormed, ha, h'.wellFormed⟩,
    ⟨h.noZeroExponent, h'.noZeroExponent⟩, ?_, ?_, (name, v) :: vs, .cons ⟨rfl, same⟩ all,
    fun dict => by simp only [Members.entries, hname, hv, entries]; rfl⟩
  · rw [Members.depth, h.depth, h'.depth]
    rfl
  · have bytes : entriesBytes ((name, obj) :: e :: es) =
        (toJsonString name).length + 1 + obj.tokenBytes + 1 + entriesBytes (e :: es) := rfl
    rw [Members.kinds, kindsSize_cons, kindsSize_cons, kindsSize_append, kindsSize_cons, h.size,
      h'.size]
    simp only [stringKind, htext, operatorKind, length_singleton]
    omega

end

variable {pretty : Bool} {indent : Nat}

theorem items_written (room : 4 * (indent + 1) + 2 ≤ maxTokenSize)
    (h : ∀ o ∈ obj :: objs, ∃ d, Written lib o (toJson lib pretty o (indent + 1)) d)
    (hlead : lead = [] ∨ lead = [space]) (count : Nat) :
    ∃ its, WrittenItems lib (obj :: objs) (lead ++ lineBreak pretty (indent + 1) ++
      toJson lib pretty obj (indent + 1) ++
      toJsonListIter lib pretty objs (indent + 1) (count + 1) ++
      lineBreak pretty indent ++ [rbracket]) its := by
  induction objs generalizing obj lead count with
  | nil =>
    obtain ⟨d, hd⟩ := h obj mem_cons_self
    have closing : Blank (lineBreak pretty indent) := blank_space (.inl rfl) (by omega)
    refine ⟨.last (lead ++ lineBreak pretty (indent + 1)) d (lineBreak pretty indent), ?_⟩
    simpa [toJsonListIter] using WrittenItems.last hd (blank_space hlead room) closing
  | cons o objs ih =>
    obtain ⟨d, hd⟩ := h obj mem_cons_self
    obtain ⟨its, hits⟩ := ih (fun p hp => h p (.tail _ hp)) (.inr rfl) (count + 1)
    refine ⟨.more (lead ++ lineBreak pretty (indent + 1)) d [] its, ?_⟩
    simpa [toJsonListIter, separator] using
      WrittenItems.more hd hits (blank_space hlead room) blank_nil

theorem key_written (room : 4 * indent + 2 ≤ maxTokenSize) (hlead : lead = [] ∨ lead = [space])
    (htext : BmpText name) : ∃ key : Key, key.WellFormed ∧ strValue key.parts = some name ∧
      strText key.parts = toJsonString name ∧
      key.text = lead ++ lineBreak pretty indent ++ toJsonString name ++ [colon, space] := by
  obtain ⟨parts, text, wf, value⟩ := toJsonString_parts htext
  have one : Blank [space] := blank_of_all rfl (by decide)
  exact ⟨⟨lead ++ lineBreak pretty indent, parts, [], [space]⟩,
    ⟨blank_space hlead room, wf, blank_nil, one⟩, value, text, by simp [Key.text, text]⟩

theorem members_written (room : 4 * (indent + 1) + 2 ≤ maxTokenSize)
    (keys : ∀ f ∈ e :: es, BmpText f.1)
    (h : ∀ f ∈ e :: es, ∃ d, Written lib f.2 (toJson lib pretty f.2 (indent + 1)) d)
    (hlead : lead = [] ∨ lead = [space]) (count : Nat) :
    ∃ ms, WrittenMembers lib (e :: es) (lead ++ lineBreak pretty (indent + 1) ++
      toJsonString e.1 ++ [colon, space] ++ toJson lib pretty e.2 (indent + 1) ++
      toJsonDictIter lib pretty es (indent + 1) (count + 1) ++
      lineBreak pretty indent ++ [rbrace]) ms := by
  induction es generalizing e lead count with
  | nil =>
    obtain ⟨d, hd⟩ := h e mem_cons_self
    obtain ⟨key, wf, value, name, text⟩ := key_written room hlead (keys e mem_cons_self)
    have closing : Blank (lineBreak pretty indent) := blank_space (.inl rfl) (by omega)
    refine ⟨.last key d (lineBreak pretty indent), ?_⟩
    simpa [toJsonDictIter, text] using WrittenMembers.last hd wf value name closing
  | cons f es ih =>
    obtain ⟨d, hd⟩ := h e mem_cons_self
    obtain ⟨key, wf, value, name, text⟩ := key_written room hlead (keys e mem_cons_self)
    obtain ⟨ms, hms⟩ := ih (fun g hg => keys g (.tail _ hg))
      (fun g hg => h g (.tail _ hg)) (.inr rfl) (count + 1)
    refine ⟨.more key d [] ms, ?_⟩
    simpa [toJsonDictIter, separator, text] using WrittenMembers.more hd hms wf value name blank_nil

/-! ## Dictionaries as maps -/

theorem qdictGet_putAll (dict es : List (Bytes × QObject D)) (distinct : (es.map Prod.fst).Nodup)
    (key : Bytes) : qdictGet (putAll dict es) key = (qdictGet es key).or (qdictGet dict key) := by
  induction es generalizing dict with
  | nil => rfl
  | cons e es ih =>
    obtain ⟨fresh, distinct⟩ := nodup_cons.mp distinct
    change qdictGet (putAll (qdictPutObj dict e.1 e.2) es) key = _
    rw [ih _ distinct, qdictGet_putObj, qdictGet_cons]
    by_cases he : e.1 = key
    · subst he
      simp [qdictGet_eq_none.mpr fresh]
    · simp [he, Ne.symm he]

section
variable (h : List.Forall₂ (fun e f => e.1 = f.1 ∧ Same e.2 f.2) es fs)
include h

theorem same_lookup (key : Bytes) : Option.Rel Same (qdictGet es key) (qdictGet fs key) := by
  induction h with
  | nil => exact .none
  | @cons e f es fs head _ ih =>
    rw [qdictGet_cons, qdictGet_cons, head.1]
    split
    · exact .some head.2
    · exact ih

theorem same_keys : es.map Prod.fst = fs.map Prod.fst := by
  induction h with
  | nil => rfl
  | cons head _ ih => rw [map_cons, map_cons, head.1, ih]

end

theorem same_dict (distinct : (es.map Prod.fst).Nodup)
    (h : List.Forall₂ (fun e f => e.1 = f.1 ∧ Same e.2 f.2) es fs) :
    Same (.qdict es) (.qdict (putAll [] fs)) := by
  refine .qdict fun key => ?_
  have found : qdictGet (putAll [] fs) key = qdictGet fs key := by
    rw [qdictGet_putAll [] fs (same_keys h ▸ distinct) key]
    exact Option.or_none
  rw [found]
  exact same_lookup h key

/-! ## All objects -/

theorem itemsDepth_mem (h : o ∈ objs) :
    o.depth.1 ≤ (itemsDepth objs).1 ∧ o.depth.2 ≤ (itemsDepth objs).2 := by
  induction objs with
  | nil => cases h
  | cons p objs ih =>
    rcases mem_cons.mp h with rfl | h
    · exact ⟨le_max_left _ _, le_max_left _ _⟩
    · exact ⟨(ih h).1.trans (le_max_right _ _), (ih h).2.trans (le_max_right _ _)⟩

theorem entriesDepth_eq (es : List (Bytes × QObject D)) :
    entriesDepth es = itemsDepth (es.map Prod.snd) := by
  induction es with
  | nil => rfl
  | cons e es ih => rw [entriesDepth, ih, map_cons, itemsDepth]

/-- Every printable object is written as a tree of the grammar that denotes it. -/
theorem written (h : obj.Printable) (indent : Nat)
    (room : 4 * (indent + obj.depth.1 + obj.depth.2) + 2 ≤ maxTokenSize) :
    ∃ d, Written lib obj (toJson lib pretty obj indent) d := by
  induction h generalizing indent with
  | qint value =>
    have number : ¬ (intNumber value).ZeroExponent := by
      rintro ⟨-, -, exponent⟩
      exact exponent rfl
    refine ⟨.num (intNumber value), intNumber_text value, intNumber_wellFormed value, number, rfl,
      ?_, .qint value, intNumber_value lib value, .qint value⟩
    change kindsSize [(intNumber value).kind] = (toJsonInt value).length
    rw [← intNumber_text]
    rfl
  | qbool value =>
    by_cases truth : value = 0
    · refine ⟨.bool false, ?_, trivial, trivial, rfl, ?_, .qbool 0, rfl, .qbool (by simp [truth])⟩
      · simp [toJson, truth, Doc.text, boolText]
      · simp only [QObject.tokenBytes, truth]
        rfl
    · refine ⟨.bool true, ?_, trivial, trivial, rfl, ?_, .qbool 1, rfl, .qbool (by simp [truth])⟩
      · simp [toJson, truth, Doc.text, boolText]
      · simp only [QObject.tokenBytes, ne_eq, truth, not_false_eq_true, if_true]
        rfl
  | @qstring s text =>
    obtain ⟨parts, htext, wf, value⟩ := toJsonString_parts text
    refine ⟨.str parts, htext, wf, trivial, rfl, ?_, .qstring s, ?_, .qstring s⟩
    · change kindsSize [stringKind parts] = (toJsonString s).length
      rw [← htext]
      rfl
    · rw [Doc.value, value]
      rfl
  | @qdict es distinct keys values ih =>
    cases es with
    | nil =>
      exact ⟨.emptyObj (lineBreak pretty indent), rfl, blank_space (.inl rfl) (by omega), trivial,
        rfl, rfl, .qdict [], rfl, same_dict distinct .nil⟩
    | cons e es =>
      simp only [QObject.depth] at room
      have inner : ∀ f ∈ e :: es, ∃ d, Written lib f.2 (toJson lib pretty f.2 (indent + 1)) d := by
        intro f hf
        have deep := itemsDepth_mem (mem_map_of_mem hf : f.2 ∈ _)
        rw [← entriesDepth_eq] at deep
        exact ih f hf (indent + 1) (by omega)
      obtain ⟨ms, hms⟩ := members_written (by omega) keys inner (.inl rfl) 0
      obtain ⟨vs, all, entries⟩ := hms.entries
      refine ⟨.obj ms, ?_, hms.wellFormed, hms.noZeroExponent, ?_, ?_, .qdict (putAll [] vs), ?_,
        same_dict distinct all⟩
      · rw [Doc.text, hms.text]
        simp [toJson, toJsonDictIter, separator]
      · rw [Doc.depth, hms.depth]
        rfl
      · rw [Doc.kinds, kindsSize_cons, hms.size]
        rfl
      · rw [Doc.value, entries]
        rfl
  | @qlist objs values ih =>
    cases objs with
    | nil =>
      exact ⟨.emptyArr (lineBreak pretty indent), rfl, blank_space (.inl rfl) (by omega), trivial,
        rfl, rfl, .qlist [], rfl, .qlist .nil⟩
    | cons o objs =>
      simp only [QObject.depth] at room
      have inner : ∀ p ∈ o :: objs, ∃ d, Written lib p (toJson lib pretty p (indent + 1)) d := by
        intro p hp
        have deep := itemsDepth_mem hp
        exact ih p hp (indent + 1) (by omega)
      obtain ⟨its, hits⟩ := items_written (by omega) inner (.inl rfl) 0
      obtain ⟨vs, hvs, all⟩ := hits.values
      refine ⟨.arr its, ?_, hits.wellFormed, hits.noZeroExponent, ?_, ?_, .qlist vs, ?_, .qlist all⟩
      · rw [Doc.text, hits.text]
        simp [toJson, toJsonListIter, separator]
      · rw [Doc.depth, hits.depth]
        rfl
      · rw [Doc.kinds, kindsSize_cons, hits.size]
        rfl
      · rw [Doc.value, hvs]
        rfl

end

end QemuStm32.Json
