import QemuStm32.Json.Parser

/-!
# The JSON printer

`qjson.c`: `to_json` appends the text of an object to a string, one line or
indented, and `qobject_from_jsonv` feeds a text to a new parser and flushes it.
`char` is signed, as on the hosts QEMU is built for by default.
-/

namespace QemuStm32.Json

open Ascii Runs

/-! ## Strings -/

/-- A digit of `%X`. -/
def hexDigit (n : Nat) : UInt8 :=
  if n < 10 then 0x30 + UInt8.ofNat n else 0x41 + UInt8.ofNat (n - 10)

/-- The text of `\u%04X` for 16 bits. -/
def hexEscape (wchar : UInt16) : Bytes :=
  let n := wchar.toNat
  [backslash, 'u'.toUInt8, hexDigit (n / 4096 % 16), hexDigit (n / 256 % 16),
    hexDigit (n / 16 % 16), hexDigit (n % 16)]

/-- The `switch` on a single `char`. A negative one is printed by `%04X` as an
`int`, of which the buffer holds the first four digits. -/
def escapeByte (ch : UInt8) : Bytes :=
  if ch = dquote then [backslash, dquote]
  else if ch = backslash then [backslash, backslash]
  else if ch = backspace then [backslash, 'b'.toUInt8]
  else if ch = formfeed then [backslash, 'f'.toUInt8]
  else if ch = newline then [backslash, 'n'.toUInt8]
  else if ch = cr then [backslash, 'r'.toUInt8]
  else if ch = tab then [backslash, 't'.toUInt8]
  else if 0x80 ≤ ch then hexEscape 0xffff
  else if ch ≤ 0x1f then hexEscape ch.toUInt16
  else [ch]

/-- The text for `ptr[0]`, given the two bytes behind it, and by how much `ptr`
is moved on in addition. -/
def escapeAt (c0 c1 c2 : UInt8) : Bytes × Nat :=
  if c0 &&& 0xe0 = 0xe0 ∧ c1 &&& 0x80 ≠ 0 ∧ c2 &&& 0x80 ≠ 0 then
    (hexEscape (((c0 &&& 0x0f).toUInt16 <<< 12) ||| ((c1 &&& 0x3f).toUInt16 <<< 6) |||
      (c2 &&& 0x3f).toUInt16), 2)
  else if c0 &&& 0xe0 = 0xc0 ∧ c1 &&& 0x80 ≠ 0 then
    (hexEscape (((c0 &&& 0x1f).toUInt16 <<< 6) ||| (c1 &&& 0x3f).toUInt16), 1)
  else (escapeByte c0, 0)

/-- The loop over the characters; `skip` bytes are passed over. A byte behind
the end is the terminating NUL. -/
def escapeLoop : Nat → Bytes → Bytes
  | _, [] => []
  | skip + 1, _ :: rest => escapeLoop skip rest
  | 0, ch :: rest =>
    let (text, extra) := escapeAt ch (rest.headD 0) (rest.tail.headD 0)
    text ++ escapeLoop extra rest

def toJsonString (string : Bytes) : Bytes := dquote :: (escapeLoop 0 (cString string) ++ [dquote])

/-! ## Objects -/

def decimal (n : Nat) : Bytes :=
  if n = 0 then [zero] else (Nat.digits 10 n).reverse.map fun d => zero + UInt8.ofNat d

/-- `PRId64`. -/
def toJsonInt (value : Int64) : Bytes :=
  if value < 0 then minus :: decimal value.toInt.natAbs else decimal value.toInt.natAbs

/-- `%f` without the zeros at its end, and without the point if nothing is left
behind it. -/
def trimFloat (text : Bytes) : Bytes :=
  let trimmed := (text.reverse.dropWhile (· == zero)).reverse
  if trimmed.getLast? = some dot then trimmed.dropLast else trimmed

/-- The line break in front of a member or a closing bracket. -/
def lineBreak (pretty : Bool) (indent : Nat) : Bytes :=
  if pretty then newline :: List.replicate (4 * indent) space else []

def separator (count : Nat) : Bytes := if count = 0 then [] else [comma, space]

section
variable {D : Type} (lib : FloatLib D) (pretty : Bool)

mutual

def toJson : QObject D → Nat → Bytes
  | .qint value, _ => toJsonInt value
  | .qfloat value, _ => trimFloat (lib.printF value)
  | .qbool value, _ =>
    if value ≠ 0 then ascii ['t', 'r', 'u', 'e'] else ascii ['f', 'a', 'l', 's', 'e']
  | .qstring string, _ => toJsonString string
  | .qdict entries, indent =>
    lbrace :: (toJsonDictIter entries (indent + 1) 0 ++ lineBreak pretty indent ++ [rbrace])
  | .qlist items, indent =>
    lbracket :: (toJsonListIter items (indent + 1) 0 ++ lineBreak pretty indent ++ [rbracket])

/-- `qdict_iter` with `to_json_dict_iter`, from the entry with number `count`. -/
def toJsonDictIter : List (Bytes × QObject D) → Nat → Nat → Bytes
  | [], _, _ => []
  | (key, obj) :: entries, indent, count =>
    separator count ++ lineBreak pretty indent ++ toJsonString key ++ [colon, space] ++
      toJson obj indent ++ toJsonDictIter entries indent (count + 1)

def toJsonListIter : List (QObject D) → Nat → Nat → Bytes
  | [], _, _ => []
  | obj :: items, indent, count =>
    separator count ++ lineBreak pretty indent ++ toJson obj indent ++
      toJsonListIter items indent (count + 1)

end

def qobjectToJson (obj : QObject D) : Bytes := toJson lib false obj 0

def qobjectToJsonPretty (obj : QObject D) : Bytes := toJson lib true obj 0

/-! ## Reading -/

/-- `parse_json` on one message after another: the last result stays, and the
arguments are used up in order. -/
def parseJson (state : Option (QObject D) × Option (List (VaArg D))) (message : Message) :
    Except Fault (Option (QObject D) × Option (List (VaArg D))) :=
  jsonParserParseErr lib message state.2 >>= fun (obj, _, st) => .ok (obj, st.ap)

def qobjectFromJsonv (string : Bytes) (ap : Option (List (VaArg D))) :
    Except Fault (Option (QObject D)) :=
  jsonMessageParserFeed jsonMessageParserInit (cString string) >>= fun (parser, out) =>
    jsonMessageParserFlush parser >>= fun (_, rest) =>
      (out ++ rest).foldlM (parseJson lib) (none, ap) >>= fun (result, _) => .ok result

def qobjectFromJson (string : Bytes) : Except Fault (Option (QObject D)) :=
  qobjectFromJsonv lib string none

end

end QemuStm32.Json
