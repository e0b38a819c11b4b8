import QemuStm32.Json.Reading

/-!
# Decoding scalars

The parser turns the text of a string and of an integer into the value that the
grammar gives it.
-/

namespace QemuStm32.Json

open Ascii List Runs

/-! ## No token holds a NUL -/

variable {bs rest str bytes : Bytes} {parts : List StrPart} {ch a b c d : UInt8} {p : StrPart}
  {n : Number}

theorem Walks.zero_notMem {s s' : LexerState} (h : Walks s bs s') : 0 ∉ bs := by
  induction h with
  | nil => exact not_mem_nil
  | @cons s s₁ s₂ ch bs hn hne _ ih =>
    intro hm
    rcases mem_cons.mp hm with rfl | hm
    · exact jsonLexer_zero s s₁ hne hn
    · exact ih hm

theorem cString_of_notMem (h : 0 ∉ bs) : cString bs = bs := by
  refine takeWhile_eq_self_iff.mpr fun ch hch => ?_
  rw [decide_eq_true_eq]
  rintro rfl
  exact h hch

theorem cString_strText (h : StrWellFormed parts) : cString (strText parts) = strText parts := by
  apply cString_of_notMem
  have inside := (walks_parts h).zero_notMem
  simp only [strText, mem_cons, mem_append, not_mem_nil, or_false, not_or]
  exact ⟨by decide, inside, by decide⟩

/-! ## Characters -/

theorem hexDigit_codes : '0'.toUInt8.toNat = 48 ∧ '9'.toUInt8.toNat = 57 ∧
    'a'.toUInt8.toNat = 97 ∧ 'f'.toUInt8.toNat = 102 ∧ 'A'.toUInt8.toNat = 65 ∧
    'F'.toUInt8.toNat = 70 := by
  decide

theorem hexDigit_cases (h : isHexDigit ch = true) :
    (48 ≤ ch.toNat ∧ ch.toNat ≤ 57) ∨ (97 ≤ ch.toNat ∧ ch.toNat ≤ 102) ∨
      (65 ≤ ch.toNat ∧ ch.toNat ≤ 70) := by
  simp only [isHexDigit, isDigit, between, Bool.or_eq_true, Bool.and_eq_true, decide_eq_true_eq,
    UInt8.le_iff_toNat_le] at h
  have codes := hexDigit_codes
  omega

theorem hexValue_lt (h : isHexDigit ch = true) : hexValue ch < 16 := by
  have range := hexDigit_cases h
  unfold hexValue
  split
  · omega
  · split <;> omega

theorem hex2decimal_toNat (h : isHexDigit ch = true) : (hex2decimal ch).toNat = hexValue ch := by
  have range := hexDigit_cases h
  obtain ⟨e0, e9, ea, ef, eA, -⟩ := hexDigit_codes
  simp only [hex2decimal, hexValue, between, Bool.and_eq_true, decide_eq_true_eq,
    UInt8.le_iff_toNat_le, e0, e9, ea, ef]
  split
  · rw [if_pos (by omega)]
    simp only [UInt8.toNat_toUInt16, UInt8.toNat_sub, e0]
    omega
  split
  · rw [if_neg (by omega), if_neg (by omega)]
    simp only [UInt16.toNat_add, UInt8.toNat_toUInt16, UInt8.toNat_sub, ea]
    change (10 + _) % _ = _
    omega
  · rw [if_neg (by omega), if_pos (by omega)]
    simp only [UInt16.toNat_add, UInt8.toNat_toUInt16, UInt8.toNat_sub, eA]
    change (10 + _) % _ = _
    omega

/-- Adding a number below `2 ^ i` to a multiple of `2 ^ i` is a bitwise or. -/
theorem or_eq_add {a b : Nat} (i : Nat) (h : b < 2 ^ i) : (a <<< i) ||| b = a * 2 ^ i + b := by
  rw [Nat.shiftLeft_eq, Nat.mul_comm, ← Nat.two_pow_add_eq_or_of_lt h]

theorem unicodeChar_toNat (ha : isHexDigit a = true) (hb : isHexDigit b = true)
    (hc : isHexDigit c = true) (hd : isHexDigit d = true) :
    (unicodeChar a b c d).toNat = hexCode a b c d := by
  have la := hexValue_lt ha
  have lb := hexValue_lt hb
  have lc := hexValue_lt hc
  have ld := hexValue_lt hd
  simp only [unicodeChar, UInt16.toNat_or, UInt16.toNat_shiftLeft, hex2decimal_toNat ha,
    hex2decimal_toNat hb, hex2decimal_toNat hc, hex2decimal_toNat hd]
  change (((hexValue a <<< 12 % 65536) ||| (hexValue b <<< 8 % 65536)) |||
    (hexValue c <<< 4 % 65536)) ||| hexValue d = hexCode a b c d
  unfold hexCode
  generalize hexValue a = x at *
  generalize hexValue b = y at *
  generalize hexValue c = z at *
  have noWrap : ∀ v i, v < 16 → i ≤ 12 → v <<< i % 65536 = v <<< i := by
    intro v i hv hi
    apply Nat.mod_eq_of_lt
    rw [Nat.shiftLeft_eq]
    have : 2 ^ i ≤ 2 ^ 12 := Nat.pow_le_pow_right (by decide) hi
    calc v * 2 ^ i ≤ 15 * 2 ^ 12 := Nat.mul_le_mul (by omega) this
      _ < 65536 := by decide
  rw [noWrap x 12 la (by decide), noWrap y 8 lb (by decide), noWrap z 4 lc (by decide),
    Nat.or_assoc, Nat.or_assoc, or_eq_add 4 (by omega), or_eq_add 8 (by omega),
    or_eq_add 12 (by omega)]
  omega

/-- A byte of the encoding: a mark above the low `k` bits of the code. -/
theorem marked_byte (x mask : UInt16) (mark : UInt8) (k a : Nat) (hk : k ≤ 8)
    (hmask : mask.toNat = 2 ^ k - 1) (hmark : mark.toNat = a <<< k) :
    mark ||| (x &&& mask).toUInt8 = UInt8.ofNat (x.toNat % 2 ^ k + mark.toNat) := by
  have bound : 2 ^ k ≤ 2 ^ 8 := Nat.pow_le_pow_right (by decide) hk
  have low : x.toNat % 2 ^ k < 2 ^ k := Nat.mod_lt _ (Nat.two_pow_pos k)
  have value : (mark ||| (x &&& mask).toUInt8).toNat = x.toNat % 2 ^ k + mark.toNat := by
    rw [UInt8.toNat_or, UInt16.toNat_toUInt8, UInt16.toNat_and, hmask,
      Nat.and_two_pow_sub_one_eq_mod, Nat.mod_eq_of_lt (by omega), hmark, or_eq_add k low,
      Nat.shiftLeft_eq, Nat.add_comm]
  rw [← value, UInt8.ofNat_toNat]

/-- The character of a 16-bit code that is no surrogate. -/
theorem char_toNat {n : Nat} (h : n < 0x10000) (scalar : ¬ (0xd800 ≤ n ∧ n < 0xe000)) :
    (Char.ofNat n).toNat = n := by
  have valid : n.isValidChar := by unfold Nat.isValidChar; omega
  rw [Char.ofNat, dif_pos valid]
  rfl

/-- `wchar_to_utf8` is the UTF-8 encoding of the code points below 2^16. -/
theorem wcharToUtf8_eq (w : UInt16) (scalar : ¬ (0xd800 ≤ w.toNat ∧ w.toNat < 0xe000)) :
    wcharToUtf8 w = String.utf8EncodeChar (Char.ofNat w.toNat) := by
  have lt := w.toNat_lt
  have code : (Char.ofNat w.toNat).val.toNat = w.toNat := char_toNat lt scalar
  have shift6 : (w >>> 6).toNat = w.toNat / 64 := by
    exact Nat.shiftRight_eq_div_pow _ 6
  have shift12 : (w >>> 12).toNat = w.toNat / 4096 := by
    exact Nat.shiftRight_eq_div_pow _ 12
  have last := marked_byte w 0x3f 0x80 6 2 (by decide) rfl rfl
  have middle := marked_byte (w >>> 6) 0x3f 0x80 6 2 (by decide) rfl rfl
  have two := marked_byte (w >>> 6) 0x1f 0xc0 5 6 (by decide) rfl rfl
  have three := marked_byte (w >>> 12) 0x0f 0xe0 4 14 (by decide) rfl rfl
  rw [shift6] at middle two
  rw [shift12] at three
  unfold wcharToUtf8 String.utf8EncodeChar
  rw [code, last, middle, two, three]
  simp only [UInt16.le_iff_toNat_le]
  change (if w.toNat ≤ 0x7f then _ else if w.toNat ≤ 0x7ff then _ else _) = _
  split
  · have one : (w &&& 0x7f).toUInt8 = UInt8.ofNat w.toNat := by
      rw [← UInt8.toNat_inj, UInt8.toNat_ofNat']
      change (w.toNat &&& 2 ^ 7 - 1) % 2 ^ 8 = _
      rw [Nat.and_two_pow_sub_one_eq_mod]
      omega
    rw [one]
  · split
    · rfl
    · rw [if_pos (by omega)]
      rfl

theorem utf8_zero_notMem {c : Char} (h : c.toNat ≠ 0) : 0 ∉ String.utf8EncodeChar c := by
  intro hm
  have range := utf8_bytes c 0 hm
  simp only [UInt8.reduceToNat] at range
  omega

theorem hexChar_zero_notMem (ha : isHexDigit a = true) (hb : isHexDigit b = true)
    (hc : isHexDigit c = true) (hd : isHexDigit d = true) (nonzero : hexCode a b c d ≠ 0)
    (scalar : ¬ (0xd800 ≤ hexCode a b c d ∧ hexCode a b c d < 0xe000)) :
    0 ∉ String.utf8EncodeChar (Char.ofNat (hexCode a b c d)) := by
  have lt := (unicodeChar a b c d).toNat_lt
  rw [unicodeChar_toNat ha hb hc hd] at lt
  exact utf8_zero_notMem (by rwa [char_toNat lt scalar])

/-! ## Strings -/

theorem unescape_plain (h : ∀ ch ∈ bs, ch ≠ dquote ∧ ch ≠ backslash)
    (tail : unescape dquote rest = .ok str) : unescape dquote (bs ++ rest) = .ok (bs ++ str) := by
  induction bs with
  | nil => exact tail
  | cons ch bs ih =>
    obtain ⟨hq, hb⟩ := h ch mem_cons_self
    have next := ih fun c hc => h c (.tail _ hc)
    rw [cons_append]
    unfold unescape
    rw [if_neg hq, if_neg hb, next]
    rfl

/-- One character of a string is read back as its bytes. -/
theorem unescape_part (h : p.WellFormed) (hv : p.value = some bytes)
    (tail : unescape dquote rest = .ok str) :
    unescape dquote (p.text ++ rest) = .ok (bytes ++ str) := by
  cases p with
  | raw c =>
    cases hv
    exact unescape_plain (fun ch hch => ⟨(utf8_plain h ch hch).1, (utf8_plain h ch hch).2.1⟩) tail
  | short e =>
    obtain ⟨byte, he, rfl⟩ := Option.map_eq_some_iff.mp hv
    simp only [StrPart.text, cons_append, nil_append]
    unfold unescape
    simp only [he, tail]
    rfl
  | hex a b c d =>
    obtain ⟨ha, hb, hc, hd⟩ := h
    simp only [StrPart.value, Option.ite_none_left_eq_some, not_or, Option.some.injEq] at hv
    obtain ⟨⟨nonzero, scalar⟩, rfl⟩ := hv
    have code := unicodeChar_toNat ha hb hc hd
    have encoded := wcharToUtf8_eq (unicodeChar a b c d) (by rwa [code])
    rw [code] at encoded
    have whole := cString_of_notMem (hexChar_zero_notMem ha hb hc hd nonzero scalar)
    have noShort : escapedByte 'u'.toUInt8 = none := by decide
    simp only [StrPart.text, cons_append, nil_append]
    unfold unescape
    simp only [noShort, ha, hb, hc, hd, Bool.and_self, if_true, tail, encoded, whole]
    rfl

theorem unescape_parts (h : StrWellFormed parts) (hv : strValue parts = some bytes) :
    unescape dquote (parts.flatMap StrPart.text ++ [dquote]) = .ok bytes := by
  induction parts generalizing bytes with
  | nil =>
    cases hv
    decide
  | cons p parts ih =>
    unfold strValue at hv
    split at hv
    · next byte rest hp hrest =>
      cases hv
      rw [flatMap_cons, append_assoc]
      exact unescape_part (h p mem_cons_self) hp (ih (fun q hq => h q (.tail _ hq)) hrest)
    · cases hv

/-- The parser gives a string the value the grammar gives it. -/
theorem qstringFromEscapedStr_strText {D : Type} (st : ParserState D) {t : Token}
    (ht : t.token = strText parts) (h : StrWellFormed parts) (hv : strValue parts = some bytes) :
    qstringFromEscapedStr st t = .ok (some bytes, st) := by
  unfold qstringFromEscapedStr
  rw [ht, cString_strText h, strText]
  simp only [if_true, unescape_parts h hv]

theorem value_zero_notMem (h : p.WellFormed) (hv : p.value = some bytes) : 0 ∉ bytes := by
  cases p with
  | raw c =>
    cases hv
    refine utf8_zero_notMem fun hz => ?_
    have := h.1
    omega
  | short e =>
    obtain ⟨byte, he, rfl⟩ := Option.map_eq_some_iff.mp hv
    simp only [StrPart.WellFormed, mem_cons, not_mem_nil, or_false] at h
    rcases h with rfl | rfl | rfl | rfl | rfl | rfl | rfl | rfl <;> cases he <;> decide
  | hex a b c d =>
    simp only [StrPart.value, Option.ite_none_left_eq_some, not_or, Option.some.injEq] at hv
    obtain ⟨⟨nonzero, scalar⟩, rfl⟩ := hv
    obtain ⟨ha, hb, hc, hd⟩ := h
    exact hexChar_zero_notMem ha hb hc hd nonzero scalar

theorem strValue_zero_notMem (h : StrWellFormed parts) (hv : strValue parts = some bytes) :
    0 ∉ bytes := by
  induction parts generalizing bytes with
  | nil =>
    cases hv
    exact not_mem_nil
  | cons p parts ih =>
    unfold strValue at hv
    split at hv
    · next byte rest hp hrest =>
      cases hv
      rw [mem_append, not_or]
      exact ⟨value_zero_notMem (h p mem_cons_self) hp, ih (fun q hq => h q (.tail _ hq)) hrest⟩
    · cases hv

/-! ## Integers -/

theorem cString_number (h : n.WellFormed) (hz : ¬ n.ZeroExponent) : cString n.text = n.text := by
  obtain ⟨s, pends⟩ := pends_number h hz
  exact cString_of_notMem pends.walks.zero_notMem

theorem Number.text_integer (h : n.isInteger = true) :
    n.text = (if n.negative then [minus] else []) ++ n.digits := by
  obtain ⟨negative, digits, fraction, exponent⟩ := n
  cases fraction with
  | some ds => cases h
  | none =>
    cases exponent with
    | some e => cases h
    | none => simp [Number.text]

/-- A digit is neither white space nor a sign. -/
theorem digit_plain (h : isDigit ch = true) :
    (ch == space || ((0x09 : UInt8) ≤ ch && ch ≤ 0x0d)) = false ∧ (ch == minus) = false ∧
      (ch == plus) = false :=
  digit_cases (P := fun ch => (ch == space || (0x09 ≤ ch && ch ≤ 0x0d)) = false ∧
    (ch == minus) = false ∧ (ch == plus) = false) (by decide) h

theorem strtoll_text (h : n.WellFormed) (integer : n.isInteger = true)
    (low : Int64.minValue.toInt ≤ n.toInt) (high : n.toInt ≤ Int64.maxValue.toInt) :
    strtoll (cString n.text) = Int64.ofInt n.toInt := by
  have hz : ¬ n.ZeroExponent := by
    rintro ⟨-, -, some⟩
    simp only [Number.isInteger, Bool.and_eq_true, Option.isNone_iff_eq_none] at integer
    exact some integer.2
  rw [cString_number h hz, Number.text_integer integer]
  obtain ⟨nonempty, all⟩ := h.digits
  have run : n.digits.takeWhile isDigit = n.digits := takeWhile_eq_self_iff.mpr all
  unfold Number.toInt digitsValue at *
  cases negative : n.negative with
  | true =>
    rw [negative] at low
    have noSpace : (minus == space || (0x09 ≤ minus && minus ≤ 0x0d)) = false := by
      decide
    simp only [strtoll, if_true, cons_append, nil_append, dropWhile_cons, noSpace,
      Bool.false_eq_true, if_false, headD_cons, tail_cons, beq_self_eq_true,
      Bool.true_or, run] at low high ⊢
    rw [if_neg (by omega), if_neg (by omega)]
  | false =>
    rw [negative] at low high
    cases hd : n.digits with
    | nil => exact absurd hd nonempty
    | cons d ds =>
      rw [hd] at all run low high
      obtain ⟨noSpace, noMinus, noPlus⟩ := digit_plain (all d mem_cons_self)
      simp only [strtoll, Bool.false_eq_true, if_false, nil_append, dropWhile_cons,
        noSpace, headD_cons, noMinus, noPlus, Bool.or_self, run] at high ⊢
      rw [if_neg (by omega), if_neg (by omega)]

end QemuStm32.Json
