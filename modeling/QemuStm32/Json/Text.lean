import QemuStm32.Json.Parser

/-!
# JSON texts

The grammar of JSON as trees that keep every choice the grammar leaves to the
writer: white space, escapes, the form of numbers. `Doc.text` is the text of a
tree, `Doc.kinds` its tokens and `Doc.value` the QObject it denotes, where there
is one: QObjects have no null, integers of 64 bits, and strings without NUL
whose characters are not written as two surrogate escapes.
-/

namespace QemuStm32.Json

open Ascii

/-- A token without its position. -/
abbrev Kind := JSONTokenType × Bytes

def Token.kind (t : Token) : Kind := (t.type, t.token)

def kindsSize (ks : List Kind) : Nat := (ks.map fun k => k.2.length).sum

/-! ## Strings -/

/-- One character of a string as it is written. -/
inductive StrPart
  | raw (c : Char)
  | short (e : UInt8)
  | hex (a b c d : UInt8)

def StrPart.WellFormed : StrPart → Prop
  | .raw c => 0x20 ≤ c.toNat ∧ c.toNat ≠ 0x22 ∧ c.toNat ≠ 0x5c
  | .short e => e ∈ [dquote, backslash, slash, 'b'.toUInt8, 'f'.toUInt8, 'n'.toUInt8,
      'r'.toUInt8, 't'.toUInt8]
  | .hex a b c d => isHexDigit a ∧ isHexDigit b ∧ isHexDigit c ∧ isHexDigit d

def StrPart.text : StrPart → Bytes
  | .raw c => String.utf8EncodeChar c
  | .short e => [backslash, e]
  | .hex a b c d => [backslash, 'u'.toUInt8, a, b, c, d]

/-- The value of a hexadecimal digit. -/
def hexValue (ch : UInt8) : Nat :=
  if ch.toNat < 0x3a then ch.toNat - 0x30
  else if ch.toNat < 0x47 then ch.toNat - 0x41 + 10
  else ch.toNat - 0x61 + 10

def hexCode (a b c d : UInt8) : Nat :=
  ((hexValue a * 16 + hexValue b) * 16 + hexValue c) * 16 + hexValue d

/-- The UTF-8 bytes of the character. -/
def StrPart.value : StrPart → Option Bytes
  | .raw c => some (String.utf8EncodeChar c)
  | .short e => (escapedByte e).map fun byte => [byte]
  | .hex a b c d =>
    let code := hexCode a b c d
    if code = 0 ∨ (0xd800 ≤ code ∧ code < 0xe000) then none
    else some (String.utf8EncodeChar (Char.ofNat code))

def strText (parts : List StrPart) : Bytes :=
  dquote :: (parts.flatMap StrPart.text ++ [dquote])

def strValue : List StrPart → Option Bytes
  | [] => some []
  | p :: parts =>
    match p.value, strValue parts with
    | some byte, some rest => some (byte ++ rest)
    | _, _ => none

/-! ## Numbers -/

structure Exponent where
  letter : UInt8
  sign : Option UInt8
  digits : Bytes

structure Number where
  negative : Bool
  digits : Bytes
  fraction : Option Bytes
  exponent : Option Exponent

/-- A non-empty run of digits. -/
def DigitRun (ds : Bytes) : Prop := ds ≠ [] ∧ ∀ ch ∈ ds, isDigit ch = true

theorem digitRun_of_all {ds : Bytes} (h : ds.all isDigit = true) (nonempty : ds ≠ []) :
    DigitRun ds :=
  ⟨nonempty, List.all_eq_true.mp h⟩

structure Exponent.WellFormed (e : Exponent) : Prop where
  letter : e.letter = 'e'.toUInt8 ∨ e.letter = 'E'.toUInt8
  sign : ∀ s ∈ e.sign, s = plus ∨ s = minus
  digits : DigitRun e.digits

structure Number.WellFormed (n : Number) : Prop where
  digits : DigitRun n.digits
  leading : n.digits.head? = some zero → n.digits = [zero]
  fraction : ∀ ds ∈ n.fraction, DigitRun ds
  exponent : ∀ e ∈ n.exponent, e.WellFormed

def Exponent.text (e : Exponent) : Bytes := e.letter :: (e.sign.toList ++ e.digits)

def Number.text (n : Number) : Bytes :=
  (if n.negative then [minus] else []) ++ n.digits ++
    (match n.fraction with | some ds => dot :: ds | none => []) ++
    (match n.exponent with | some e => e.text | none => [])

def Number.isInteger (n : Number) : Bool := n.fraction.isNone && n.exponent.isNone

/-- A zero that an exponent follows directly. -/
def Number.ZeroExponent (n : Number) : Prop :=
  n.digits = [zero] ∧ n.fraction = none ∧ n.exponent ≠ none

def digitsValue (ds : Bytes) : Nat := ds.foldl (fun v ch => v * 10 + (ch - zero).toNat) 0

def Number.toInt (n : Number) : Int :=
  if n.negative then -(digitsValue n.digits : Int) else digitsValue n.digits

def Number.value {D : Type} (lib : FloatLib D) (n : Number) : Option (QObject D) :=
  if n.isInteger then
    if Int64.minValue.toInt ≤ n.toInt ∧ n.toInt ≤ Int64.maxValue.toInt then
      some (.qint (Int64.ofInt n.toInt))
    else none
  else some (.qfloat (lib.strtod n.text))

def Number.kind (n : Number) : Kind :=
  (.terminal (if n.isInteger then .integer else .float), n.text)

/-! ## Values -/

/-- What the grammar calls a member without the value. -/
structure Key where
  before : Bytes
  parts : List StrPart
  beforeColon : Bytes
  afterColon : Bytes

mutual

/-- A JSON value as it is written. -/
inductive Doc
  | str (parts : List StrPart)
  | num (n : Number)
  | bool (b : Bool)
  | null
  | emptyArr (pad : Bytes)
  | arr (items : Items)
  | emptyObj (pad : Bytes)
  | obj (members : Members)

/-- The values of an array with the white space before and after each. -/
inductive Items
  | last (before : Bytes) (d : Doc) (after : Bytes)
  | more (before : Bytes) (d : Doc) (after : Bytes) (rest : Items)

inductive Members
  | last (key : Key) (d : Doc) (after : Bytes)
  | more (key : Key) (d : Doc) (after : Bytes) (rest : Members)

end

def Key.text (k : Key) : Bytes :=
  k.before ++ strText k.parts ++ k.beforeColon ++ [colon] ++ k.afterColon

def boolText (b : Bool) : Bytes :=
  if b then ascii ['t', 'r', 'u', 'e'] else ascii ['f', 'a', 'l', 's', 'e']

def nullText : Bytes := ascii ['n', 'u', 'l', 'l']

mutual

def Doc.text : Doc → Bytes
  | .str parts => strText parts
  | .num n => n.text
  | .bool b => boolText b
  | .null => nullText
  | .emptyArr pad => lbracket :: (pad ++ [rbracket])
  | .arr items => lbracket :: items.text
  | .emptyObj pad => lbrace :: (pad ++ [rbrace])
  | .obj members => lbrace :: members.text

/-- The text behind the opening bracket. -/
def Items.text : Items → Bytes
  | .last before d after => before ++ d.text ++ after ++ [rbracket]
  | .more before d after rest => before ++ d.text ++ after ++ comma :: rest.text

def Members.text : Members → Bytes
  | .last key d after => key.text ++ d.text ++ after ++ [rbrace]
  | .more key d after rest => key.text ++ d.text ++ after ++ comma :: rest.text

end

def operatorKind (op : UInt8) : Kind := (.terminal .operator, [op])

def stringKind (parts : List StrPart) : Kind := (.terminal .string, strText parts)

mutual

def Doc.kinds : Doc → List Kind
  | .str parts => [stringKind parts]
  | .num n => [n.kind]
  | .bool b => [(.terminal .keyword, boolText b)]
  | .null => [(.terminal .keyword, nullText)]
  | .emptyArr _ => [operatorKind lbracket, operatorKind rbracket]
  | .arr items => operatorKind lbracket :: items.kinds
  | .emptyObj _ => [operatorKind lbrace, operatorKind rbrace]
  | .obj members => operatorKind lbrace :: members.kinds

def Items.kinds : Items → List Kind
  | .last _ d _ => d.kinds ++ [operatorKind rbracket]
  | .more _ d _ rest => d.kinds ++ operatorKind comma :: rest.kinds

def Members.kinds : Members → List Kind
  | .last key d _ =>
    stringKind key.parts :: operatorKind colon :: (d.kinds ++ [operatorKind rbrace])
  | .more key d _ rest =>
    stringKind key.parts :: operatorKind colon :: (d.kinds ++ operatorKind comma :: rest.kinds)

end

section
variable {D : Type} (lib : FloatLib D)

mutual

/-- The QObject a text denotes, `none` where QObjects have no such value. A
repeated key keeps its last value. -/
def Doc.value : Doc → Option (QObject D)
  | .str parts => (strValue parts).map .qstring
  | .num n => n.value lib
  | .bool b => some (.qbool (if b then 1 else 0))
  | .null => none
  | .emptyArr _ => some (.qlist [])
  | .arr items => (items.values).map .qlist
  | .emptyObj _ => some (.qdict [])
  | .obj members => (members.entries []).map .qdict

def Items.values : Items → Option (List (QObject D))
  | .last _ d _ => d.value.map fun v => [v]
  | .more _ d _ rest =>
    match d.value, rest.values with
    | some v, some vs => some (v :: vs)
    | _, _ => none

def Members.entries : Members → List (Bytes × QObject D) → Option (List (Bytes × QObject D))
  | .last key d _, dict =>
    match strValue key.parts, d.value with
    | some k, some v => some (qdictPutObj dict k v)
    | _, _ => none
  | .more key d _ rest, dict =>
    match strValue key.parts, d.value with
    | some k, some v => rest.entries (qdictPutObj dict k v)
    | _, _ => none

end

end

/-! ## Well-formed texts within the limits -/

/-- A run of white space that fits into one token of the lexer. -/
def Blank (ws : Bytes) : Prop := (∀ ch ∈ ws, isWhitespace ch = true) ∧ ws.length ≤ maxTokenSize

theorem blank_of_all {ws : Bytes} (h : ws.all isWhitespace = true)
    (short : ws.length ≤ maxTokenSize) : Blank ws :=
  ⟨List.all_eq_true.mp h, short⟩

theorem blank_nil : Blank [] := ⟨nofun, Nat.zero_le _⟩

def StrWellFormed (parts : List StrPart) : Prop := ∀ p ∈ parts, p.WellFormed

structure Key.WellFormed (k : Key) : Prop where
  before : Blank k.before
  parts : StrWellFormed k.parts
  beforeColon : Blank k.beforeColon
  afterColon : Blank k.afterColon

mutual

def Doc.WellFormed : Doc → Prop
  | .str parts => StrWellFormed parts
  | .num n => n.WellFormed
  | .bool _ => True
  | .null => True
  | .emptyArr pad => Blank pad
  | .arr items => items.WellFormed
  | .emptyObj pad => Blank pad
  | .obj members => members.WellFormed

def Items.WellFormed : Items → Prop
  | .last before d after => Blank before ∧ d.WellFormed ∧ Blank after
  | .more before d after rest => Blank before ∧ d.WellFormed ∧ Blank after ∧ rest.WellFormed

def Members.WellFormed : Members → Prop
  | .last key d after => key.WellFormed ∧ d.WellFormed ∧ Blank after
  | .more key d after rest => key.WellFormed ∧ d.WellFormed ∧ Blank after ∧ rest.WellFormed

end

mutual

/-- No number of the text is a zero directly followed by an exponent. -/
def Doc.NoZeroExponent : Doc → Prop
  | .num n => ¬ n.ZeroExponent
  | .arr items => items.NoZeroExponent
  | .obj members => members.NoZeroExponent
  | .str _ | .bool _ | .null | .emptyArr _ | .emptyObj _ => True

def Items.NoZeroExponent : Items → Prop
  | .last _ d _ => d.NoZeroExponent
  | .more _ d _ rest => d.NoZeroExponent ∧ rest.NoZeroExponent

def Members.NoZeroExponent : Members → Prop
  | .last _ d _ => d.NoZeroExponent
  | .more _ d _ rest => d.NoZeroExponent ∧ rest.NoZeroExponent

end

mutual

/-- How deep the braces nest, then the brackets. -/
def Doc.depth : Doc → Nat × Nat
  | .emptyArr _ => (0, 1)
  | .arr items => (items.depth.1, items.depth.2 + 1)
  | .emptyObj _ => (1, 0)
  | .obj members => (members.depth.1 + 1, members.depth.2)
  | .str _ | .num _ | .bool _ | .null => (0, 0)

def Items.depth : Items → Nat × Nat
  | .last _ d _ => d.depth
  | .more _ d _ rest => (max d.depth.1 rest.depth.1, max d.depth.2 rest.depth.2)

def Members.depth : Members → Nat × Nat
  | .last _ d _ => d.depth
  | .more _ d _ rest => (max d.depth.1 rest.depth.1, max d.depth.2 rest.depth.2)

end

/-- The limits of the streamer on one message. -/
structure Doc.Fits (d : Doc) : Prop where
  braces : (d.depth.1 : Int) ≤ maxNesting
  brackets : (d.depth.2 : Int) ≤ maxNesting
  size : kindsSize d.kinds ≤ maxTokenSize

/-- An object or an array. -/
def Doc.isContainer : Doc → Bool
  | .emptyArr _ | .arr _ | .emptyObj _ | .obj _ => true
  | .str _ | .num _ | .bool _ | .null => false

end QemuStm32.Json
