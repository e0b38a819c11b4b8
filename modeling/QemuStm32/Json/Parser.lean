import QemuStm32.Json.QObject
import QemuStm32.Json.Streamer

/-!
# The JSON parser

`json-parser.c`: a recursive descent over the tokens of one message. Every
`parse_*` function works on a copy of the token list and hands back the rest
only when it succeeds, except where the source does otherwise.
-/

namespace QemuStm32.Json

open Ascii Runs

/-- The functions of the C library on `double` that JSON uses: `strtod` and the
conversion `%f` of `printf`. -/
structure FloatLib (D : Type) where
  strtod : Bytes → D
  printF : D → Bytes

/-- The last error, as the format and the argument of `parse_error`. -/
structure ParseError where
  format : String
  argument : Option Bytes
  deriving DecidableEq, Repr

/-- An argument of the variable argument list. -/
inductive VaArg (D : Type)
  | object (obj : Option (QObject D))
  | int (value : Int32)
  | long (value : Int64)
  | longLong (value : Int64)
  | str (string : Bytes)
  | double (value : D)

/-- What the functions of the parser share: the context and the argument list,
`none` where the caller passed `NULL`. -/
structure ParserState (D : Type) where
  err : Option ParseError
  ap : Option (List (VaArg D))

section
variable {D : Type}

def ParserState.parseError (st : ParserState D) (format : String) : ParserState D :=
  { st with err := some ⟨format, none⟩ }

def tokenIsOperator (t : Token) (op : UInt8) : Bool :=
  t.type == .terminal .operator && t.token.headD 0 == op && t.token.tail.headD 0 == 0

/-- The bytes of a string constant of the source. -/
def ascii (value : List Char) : Bytes := value.map Char.toUInt8

def tokenIsKeyword (t : Token) (value : List Char) : Bool :=
  t.type == .terminal .keyword && cString t.token == ascii value

def tokenIsEscape (t : Token) (value : List Char) : Bool :=
  t.type == .terminal .escape && cString t.token == ascii value

/-! ## Strings -/

def wcharToUtf8 (wchar : UInt16) : Bytes :=
  if wchar ≤ 0x007f then [(wchar &&& 0x7f).toUInt8]
  else if wchar ≤ 0x07ff then
    [(0xc0 : UInt8) ||| ((wchar >>> 6) &&& 0x1f).toUInt8,
      (0x80 : UInt8) ||| (wchar &&& 0x3f).toUInt8]
  else
    [(0xe0 : UInt8) ||| ((wchar >>> 12) &&& 0x0f).toUInt8,
      (0x80 : UInt8) ||| ((wchar >>> 6) &&& 0x3f).toUInt8,
      (0x80 : UInt8) ||| (wchar &&& 0x3f).toUInt8]

/-- `hex2decimal` on the digits that `qemu_isxdigit` lets through. -/
def hex2decimal (ch : UInt8) : UInt16 :=
  if between '0' '9' ch then (ch - '0'.toUInt8).toUInt16
  else if between 'a' 'f' ch then 10 + (ch - 'a'.toUInt8).toUInt16
  else 10 + (ch - 'A'.toUInt8).toUInt16

def unicodeChar (a b c d : UInt8) : UInt16 :=
  (hex2decimal a <<< 12) ||| (hex2decimal b <<< 8) ||| (hex2decimal c <<< 4) ||| hex2decimal d

/-- The bytes of the one-letter escapes. -/
def escapedByte (ch : UInt8) : Option UInt8 :=
  if ch = dquote then some dquote
  else if ch = squote then some squote
  else if ch = backslash then some backslash
  else if ch = slash then some slash
  else if ch = 'b'.toUInt8 then some backspace
  else if ch = 'f'.toUInt8 then some formfeed
  else if ch = 'n'.toUInt8 then some newline
  else if ch = 'r'.toUInt8 then some cr
  else if ch = 't'.toUInt8 then some tab
  else none

/-- The loop of `qstring_from_escaped_str` behind the opening quote. The end of
the list is the terminating NUL. -/
def unescape (quote : UInt8) : Bytes → Except String Bytes
  | [] => .ok []
  | ch :: rest =>
    if ch = quote then .ok []
    else if ch = backslash then
      match rest with
      | [] => .error "invalid escape sequence in string"
      | e :: rest =>
        match escapedByte e with
        | some byte => unescape quote rest >>= fun str => .ok (byte :: str)
        | none =>
          if e = 'u'.toUInt8 then
            match rest with
            | a :: b :: c :: d :: rest =>
              if isHexDigit a && isHexDigit b && isHexDigit c && isHexDigit d then
                unescape quote rest >>= fun str =>
                  .ok (cString (wcharToUtf8 (unicodeChar a b c d)) ++ str)
              else .error "invalid hex escape sequence in string"
            | _ => .error "invalid hex escape sequence in string"
          else .error "invalid escape sequence in string"
    else unescape quote rest >>= fun str => .ok (ch :: str)

/-- A token that does not begin with a double quote ends at a single quote. -/
def qstringFromEscapedStr (st : ParserState D) (t : Token) :
    Except Fault (Option Bytes × ParserState D) :=
  match cString t.token with
  | [] => .error (.outOfBounds "token" 1)
  | ch :: rest =>
    match unescape (if ch = dquote then dquote else squote) rest with
    | .ok str => .ok (some str, st)
    | .error message => .ok (none, st.parseError message)

/-! ## Scalars -/

/-- `strtoll` in base 10: leading white space, a sign, digits, and the limits of
`long long` for a value outside them. -/
def strtoll (bytes : Bytes) : Int64 :=
  let bytes := bytes.dropWhile fun ch => ch == space || (0x09 ≤ ch && ch ≤ 0x0d)
  let negative := bytes.headD 0 == minus
  let digits := if bytes.headD 0 == minus || bytes.headD 0 == plus then bytes.tail else bytes
  let magnitude := (digits.takeWhile isDigit).foldl
    (fun value ch => value * 10 + (ch - zero).toNat) 0
  let value : Int := if negative then -magnitude else magnitude
  if value < Int64.minValue.toInt then Int64.minValue
  else if Int64.maxValue.toInt < value then Int64.maxValue
  else Int64.ofInt value

/-- What a `parse_*` function hands back: the object or `NULL`, the tokens left
in `*tokens` and the shared state. -/
abbrev Parsed (D : Type) (α : Type) := Option α × List Token × ParserState D

/-- A parsing function of the source. -/
abbrev Parses (D : Type) := List Token → ParserState D → Except Fault (Parsed D (QObject D))

def parseKeyword (tokens : List Token) (st : ParserState D) : Except Fault (Parsed D (QObject D)) :=
  match tokens with
  | [] => .ok (none, tokens, st)
  | t :: working =>
    if t.type ≠ .terminal .keyword then .ok (none, tokens, st)
    else if tokenIsKeyword t ['t', 'r', 'u', 'e'] then .ok (some (.qbool 1), working, st)
    else if tokenIsKeyword t ['f', 'a', 'l', 's', 'e'] then .ok (some (.qbool 0), working, st)
    else .ok (none, tokens,
      { st with err := some ⟨"invalid keyword `%s'", some (cString t.token)⟩ })

/-- `va_arg`: an argument of another type than the one passed is undefined. -/
def vaArg {α : Type} (select : VaArg D → Option α) :
    List (VaArg D) → Except Fault (α × List (VaArg D))
  | [] => .error (.outOfBounds "va_list" 0)
  | arg :: ap =>
    match select arg with
    | some value => .ok (value, ap)
    | none => .error (.outOfBounds "va_list" 0)

/-- The object an escape stands for, `none` for an escape the parser does not
know. A `%p` may yield the `NULL` object. -/
def escapeObject (t : Token) (ap : List (VaArg D)) :
    Option (Except Fault (Option (QObject D) × List (VaArg D))) :=
  let object (select : VaArg D → Option (QObject D)) :=
    vaArg select ap >>= fun (obj, ap) => .ok (some obj, ap)
  if tokenIsEscape t ['%', 'p'] then some (vaArg (fun | .object obj => some obj | _ => none) ap)
  else if tokenIsEscape t ['%', 'i'] then
    some (object fun | .int v => some (.qbool v.toInt) | _ => none)
  else if tokenIsEscape t ['%', 'd'] then
    some (object fun | .int v => some (.qint (Int64.ofInt v.toInt)) | _ => none)
  else if tokenIsEscape t ['%', 'l', 'd'] then
    some (object fun | .long v => some (.qint v) | _ => none)
  else if tokenIsEscape t ['%', 'l', 'l', 'd'] || tokenIsEscape t ['%', 'I', '6', '4', 'd'] then
    some (object fun | .longLong v => some (.qint v) | _ => none)
  else if tokenIsEscape t ['%', 's'] then
    some (object fun | .str s => some (.qstring (cString s)) | _ => none)
  else if tokenIsEscape t ['%', 'f'] then
    some (object fun | .double v => some (.qfloat v) | _ => none)
  else none

/-- The token is consumed even when the object is `NULL`. -/
def parseEscape (tokens : List Token) (st : ParserState D) : Except Fault (Parsed D (QObject D)) :=
  match st.ap, tokens with
  | some ap, t :: working =>
    match escapeObject t ap with
    | some result => result >>= fun (obj, ap) => .ok (obj, working, { st with ap := some ap })
    | none => .ok (none, tokens, st)
  | _, _ => .ok (none, tokens, st)

/-- A string with a bad escape gives the `NULL` object, and is consumed. -/
def parseLiteral (lib : FloatLib D) (tokens : List Token) (st : ParserState D) :
    Except Fault (Parsed D (QObject D)) :=
  match tokens with
  | [] => .ok (none, tokens, st)
  | t :: working =>
    match t.type with
    | .terminal .string =>
      qstringFromEscapedStr st t >>= fun (str, st) => .ok (str.map .qstring, working, st)
    | .terminal .integer => .ok (some (.qint (strtoll (cString t.token))), working, st)
    | .terminal .float => .ok (some (.qfloat (lib.strtod (cString t.token))), working, st)
    | _ => .ok (none, tokens, st)

/-- Try the next alternative on what the one before left. -/
def orElse (first : Except Fault (Parsed D (QObject D))) (next : Parses D) :
    Except Fault (Parsed D (QObject D)) :=
  first >>= fun
    | (some obj, tokens, st) => .ok (some obj, tokens, st)
    | (none, tokens, st) => next tokens st

/-! ## Objects and arrays -/

mutual

/-- The recursion is bounded by `fuel`. -/
def parseValue (lib : FloatLib D) : Nat → Parses D
  | 0, _, _ => .error .endlessLoop
  | fuel + 1, tokens, st =>
    orElse (orElse (orElse (orElse (parseObject lib fuel tokens st) (parseArray lib fuel))
      parseEscape) parseKeyword) (parseLiteral lib)

/-- The dictionary is the result, `none` standing for -1. -/
def parsePair (lib : FloatLib D) : Nat → List (Bytes × QObject D) → List Token → ParserState D →
    Except Fault (Parsed D (List (Bytes × QObject D)))
  | 0, _, _, _ => .error .endlessLoop
  | _ + 1, _, [], st => .ok (none, [], st.parseError "premature EOI")
  | fuel + 1, dict, tokens, st =>
    parseValue lib fuel tokens st >>= fun
      | (some (.qstring _), [], st) => .ok (none, tokens, st.parseError "premature EOI")
      | (some (.qstring key), t :: working, st) =>
        if tokenIsOperator t colon then
          parseValue lib fuel working st >>= fun
            | (some value, working, st) =>
              .ok (some (qdictPutObj dict (cString key) value), working, st)
            | (none, _, st) => .ok (none, tokens, st.parseError "Missing value in dict")
        else .ok (none, tokens, st.parseError "missing : in object pair")
      | (_, _, st) => .ok (none, tokens, st.parseError "key is not a string in object")

/-- The pairs of an object up to its closing brace. -/
def parsePairs (lib : FloatLib D) : Nat → List (Bytes × QObject D) → List Token → ParserState D →
    Except Fault (Parsed D (List (Bytes × QObject D)))
  | 0, _, _, _ => .error .endlessLoop
  | fuel + 1, dict, working, st =>
    parsePair lib fuel dict working st >>= fun
      | (none, working, st) => .ok (none, working, st)
      | (some _, [], st) => .ok (none, [], st.parseError "premature EOI")
      | (some dict, t :: working, st) =>
        if tokenIsOperator t rbrace then .ok (some dict, working, st)
        else if tokenIsOperator t comma then parsePairs lib fuel dict working st
        else .ok (none, working, st.parseError "expected separator in dict")

def parseObject (lib : FloatLib D) : Nat → Parses D
  | 0, _, _ => .error .endlessLoop
  | _ + 1, [], st => .ok (none, [], st)
  | fuel + 1, t :: working, st =>
    if tokenIsOperator t lbrace then
      match working with
      | [] => .ok (none, t :: working, st.parseError "premature EOI")
      | peek :: after =>
        if tokenIsOperator peek rbrace then .ok (some (.qdict []), after, st)
        else parsePairs lib fuel [] working st >>= fun
          | (some dict, working, st) => .ok (some (.qdict dict), working, st)
          | (none, _, st) => .ok (none, t :: working, st)
    else .ok (none, t :: working, st)

/-- The values of an array up to its closing bracket. -/
def parseItems (lib : FloatLib D) : Nat → List (QObject D) → List Token → ParserState D →
    Except Fault (Parsed D (List (QObject D)))
  | 0, _, _, _ => .error .endlessLoop
  | fuel + 1, list, working, st =>
    parseValue lib fuel working st >>= fun
      | (none, working, st) => .ok (none, working, st.parseError "expecting value")
      | (some _, [], st) => .ok (none, [], st.parseError "premature EOI")
      | (some obj, t :: working, st) =>
        if tokenIsOperator t rbracket then .ok (some (list ++ [obj]), working, st)
        else if tokenIsOperator t comma then parseItems lib fuel (list ++ [obj]) working st
        else .ok (none, working, st.parseError "expected separator in list")

def parseArray (lib : FloatLib D) : Nat → Parses D
  | 0, _, _ => .error .endlessLoop
  | _ + 1, [], st => .ok (none, [], st)
  | fuel + 1, t :: working, st =>
    if tokenIsOperator t lbracket then
      match working with
      | [] => .ok (none, t :: working, st.parseError "premature EOI")
      | peek :: after =>
        if tokenIsOperator peek rbracket then .ok (some (.qlist []), after, st)
        else parseItems lib fuel [] working st >>= fun
          | (some list, working, st) => .ok (some (.qlist list), working, st)
          | (none, _, st) => .ok (none, t :: working, st)
    else .ok (none, t :: working, st)

end

/-- Enough for every list of tokens: between two calls of `parse_value` that
look at the same token there are at most four others. -/
def parseFuel (tokens : List Token) : Nat := 5 * tokens.length + 5

/-- The result of `json_parser_parse_err`, with the tokens its copy of the list
is left with and the error handed to the caller. -/
def jsonParserParseErr (lib : FloatLib D) (tokens : Message) (ap : Option (List (VaArg D))) :
    Except Fault (Parsed D (QObject D)) :=
  match tokens with
  | none => .ok (none, [], ⟨none, ap⟩)
  | some tokens => parseValue lib (parseFuel tokens) tokens ⟨none, ap⟩

def jsonParserParse (lib : FloatLib D) (tokens : Message) (ap : Option (List (VaArg D))) :
    Except Fault (Option (QObject D)) :=
  jsonParserParseErr lib tokens ap >>= fun (obj, _, _) => .ok obj

end

end QemuStm32.Json
