import QemuStm32.Fault
import QemuStm32.Lib.Transducers

/-! The JSON lexer, `json-lexer.c`. -/

namespace QemuStm32.Json

abbrev Bytes := List UInt8

/-- `enum json_lexer_state`. -/
inductive LexerState
  | inError
  | inDqUcode3 | inDqUcode2 | inDqUcode1 | inDqUcode0 | inDqStringEscape | inDqString
  | inSqUcode3 | inSqUcode2 | inSqUcode1 | inSqUcode0 | inSqStringEscape | inSqString
  | inZero | inDigits | inDigit | inExpE | inMantissa | inMantissaDigits
  | inNonzeroNumber | inNegNonzeroNumber | inKeyword
  | inEscape | inEscapeL | inEscapeLl | inEscapeI | inEscapeI6 | inEscapeI64
  | inWhitespace | inStart
  deriving DecidableEq, Repr

/-- The values of `enum json_token_type` that the table holds. -/
inductive Terminal
  | operator | integer | float | keyword | string | escape | skip
  deriving DecidableEq, Repr

/-- An entry of the table: a state to go to, or a token that is complete. -/
inductive Next
  | state (s : LexerState)
  | terminal (t : Terminal)
  deriving DecidableEq, Repr

/-- The type an emitted token carries. `state s` is the state number that an
oversized token is emitted with. -/
inductive JSONTokenType
  | terminal (t : Terminal)
  | error
  | state (s : LexerState)
  deriving DecidableEq, Repr

namespace Ascii

abbrev dquote : UInt8 := 0x22
abbrev percent : UInt8 := 0x25
abbrev squote : UInt8 := 0x27
abbrev plus : UInt8 := 0x2b
abbrev comma : UInt8 := 0x2c
abbrev minus : UInt8 := 0x2d
abbrev dot : UInt8 := 0x2e
abbrev slash : UInt8 := 0x2f
abbrev zero : UInt8 := 0x30
abbrev colon : UInt8 := 0x3a
abbrev lbracket : UInt8 := 0x5b
abbrev backslash : UInt8 := 0x5c
abbrev rbracket : UInt8 := 0x5d
abbrev lbrace : UInt8 := 0x7b
abbrev rbrace : UInt8 := 0x7d
abbrev space : UInt8 := 0x20
abbrev tab : UInt8 := 0x09
abbrev newline : UInt8 := 0x0a
abbrev formfeed : UInt8 := 0x0c
abbrev backspace : UInt8 := 0x08
abbrev cr : UInt8 := 0x0d

end Ascii

open Ascii

/-- The range `lo ... hi` of a designated initializer. -/
def between (lo hi : Char) (ch : UInt8) : Bool := lo.toUInt8 ≤ ch && ch ≤ hi.toUInt8

def isDigit (ch : UInt8) : Bool := between '0' '9' ch

def isHexDigit (ch : UInt8) : Bool := isDigit ch || between 'a' 'f' ch || between 'A' 'F' ch

def isWhitespace (ch : UInt8) : Bool :=
  ch == space || ch == tab || ch == cr || ch == newline

def isOperator (ch : UInt8) : Bool :=
  ch == lbrace || ch == rbrace || ch == lbracket || ch == rbracket || ch == comma || ch == colon

/-- An entry that no initializer names is 0, which is `IN_ERROR`. -/
def Next.none : Next := .state .inError

/-- `TERMINAL(state)`: the entries `0 ... 0x7F`. -/
def terminal (t : Terminal) (ch : UInt8) : Next := if ch ≤ 0x7f then .terminal t else .none

/-- The four rows that read a hexadecimal digit of `\uXXXX`. -/
def hexRow (next : LexerState) (ch : UInt8) : Next := if isHexDigit ch then .state next else .none

/-- The rows of the two kinds of strings: any byte that can stand in UTF-8
text, the backslash and the closing quote `quote`. -/
def stringRow (self escape : LexerState) (quote ch : UInt8) : Next :=
  if ch == quote then .terminal .string
  else if ch == backslash then .state escape
  else if (0x01 ≤ ch && ch ≤ 0xbf) || (0xc2 ≤ ch && ch ≤ 0xf4) then .state self
  else .none

/-- The table `json_lexer`. Where initializers of a row overlap the later one
counts, so it is tested first. -/
def jsonLexer : LexerState → UInt8 → Next
  | .inError, _ => .none
  | .inDqUcode3, ch => hexRow .inDqString ch
  | .inDqUcode2, ch => hexRow .inDqUcode3 ch
  | .inDqUcode1, ch => hexRow .inDqUcode2 ch
  | .inDqUcode0, ch => hexRow .inDqUcode1 ch
  | .inDqStringEscape, ch =>
    if ch == 'b'.toUInt8 || ch == 'f'.toUInt8 || ch == 'n'.toUInt8 || ch == 'r'.toUInt8 ||
        ch == 't'.toUInt8 || ch == slash || ch == backslash || ch == squote || ch == dquote then
      .state .inDqString
    else if ch == 'u'.toUInt8 then .state .inDqUcode0
    else .none
  | .inDqString, ch => stringRow .inDqString .inDqStringEscape dquote ch
  | .inSqUcode3, ch => hexRow .inSqString ch
  | .inSqUcode2, ch => hexRow .inSqUcode3 ch
  | .inSqUcode1, ch => hexRow .inSqUcode2 ch
  | .inSqUcode0, ch => hexRow .inSqUcode1 ch
  | .inSqStringEscape, ch =>
    -- an escaped slash or backslash goes on as a double-quoted string
    if ch == slash || ch == backslash then .state .inDqString
    else if ch == 'b'.toUInt8 || ch == 'f'.toUInt8 || ch == 'n'.toUInt8 || ch == 'r'.toUInt8 ||
        ch == 't'.toUInt8 || ch == squote || ch == dquote then
      .state .inSqString
    else if ch == 'u'.toUInt8 then .state .inSqUcode0
    else .none
  | .inSqString, ch => stringRow .inSqString .inSqStringEscape squote ch
  | .inZero, ch =>
    if ch == dot then .state .inMantissa
    else if isDigit ch then .none
    else terminal .integer ch
  | .inDigits, ch => if isDigit ch then .state .inDigits else terminal .float ch
  | .inDigit, ch => if isDigit ch then .state .inDigits else .none
  | .inExpE, ch =>
    if isDigit ch then .state .inDigits
    else if ch == minus || ch == plus then .state .inDigit
    else .none
  | .inMantissaDigits, ch =>
    if ch == 'e'.toUInt8 || ch == 'E'.toUInt8 then .state .inExpE
    else if isDigit ch then .state .inMantissaDigits
    else terminal .float ch
  | .inMantissa, ch => if isDigit ch then .state .inMantissaDigits else .none
  | .inNonzeroNumber, ch =>
    if ch == dot then .state .inMantissa
    else if ch == 'e'.toUInt8 || ch == 'E'.toUInt8 then .state .inExpE
    else if isDigit ch then .state .inNonzeroNumber
    else terminal .integer ch
  | .inNegNonzeroNumber, ch =>
    if between '1' '9' ch then .state .inNonzeroNumber
    else if ch == zero then .state .inZero
    else .none
  | .inKeyword, ch => if between 'a' 'z' ch then .state .inKeyword else terminal .keyword ch
  | .inWhitespace, ch => if isWhitespace ch then .state .inWhitespace else terminal .skip ch
  | .inEscapeLl, ch => if ch == 'd'.toUInt8 then .terminal .escape else .none
  | .inEscapeL, ch =>
    if ch == 'l'.toUInt8 then .state .inEscapeLl
    else if ch == 'd'.toUInt8 then .terminal .escape
    else .none
  | .inEscapeI64, ch => if ch == 'd'.toUInt8 then .terminal .escape else .none
  | .inEscapeI6, ch => if ch == '4'.toUInt8 then .state .inEscapeI64 else .none
  | .inEscapeI, ch => if ch == '6'.toUInt8 then .state .inEscapeI6 else .none
  | .inEscape, ch =>
    if ch == 'I'.toUInt8 then .state .inEscapeI
    else if ch == 'l'.toUInt8 then .state .inEscapeL
    else if ch == 'd'.toUInt8 || ch == 'i'.toUInt8 || ch == 'p'.toUInt8 || ch == 's'.toUInt8 ||
        ch == 'f'.toUInt8 then
      .terminal .escape
    else .none
  | .inStart, ch =>
    if isWhitespace ch then .state .inWhitespace
    else if ch == percent then .state .inEscape
    else if between 'a' 'z' ch then .state .inKeyword
    else if isOperator ch then .terminal .operator
    else if ch == minus then .state .inNegNonzeroNumber
    else if between '1' '9' ch then .state .inNonzeroNumber
    else if ch == zero then .state .inZero
    else if ch == squote then .state .inSqString
    else if ch == dquote then .state .inDqString
    else .none

/-- `TERMINAL_NEEDED_LOOKAHEAD`. -/
def terminalNeededLookahead (oldState : LexerState) (next : Next) : Bool :=
  jsonLexer oldState 0 == next

/-- `MAX_TOKEN_SIZE`, the same constant in the lexer and in the streamer. -/
def maxTokenSize : Nat := 64 <<< 20

structure JSONLexer where
  state : LexerState
  token : Bytes
  x : Nat
  y : Nat
  deriving DecidableEq, Repr

/-- The arguments of one call of the emitter, kept by the streamer as a token. -/
structure Token where
  type : JSONTokenType
  token : Bytes
  x : Nat
  y : Nat
  deriving DecidableEq, Repr

def jsonLexerInit : JSONLexer := ⟨.inStart, [], 0, 0⟩

/-- How a pass through the body of the `do` loop ends. -/
inductive Exit
  | returned
  | consumed
  | notConsumed
  deriving DecidableEq, Repr

def JSONLexer.emitted (lexer : JSONLexer) (type : JSONTokenType) (token : Bytes) : Token :=
  ⟨type, token, lexer.x, lexer.y⟩

/-- The body of the `do` loop of `json_lexer_feed_char`, with the tokens it
emits. -/
def feedRound (lexer : JSONLexer) (ch : UInt8) : JSONLexer × List Token × Exit :=
  let newState := jsonLexer lexer.state ch
  let charConsumed := !terminalNeededLookahead lexer.state newState
  let token := if charConsumed then lexer.token ++ [ch] else lexer.token
  let exit := if charConsumed then Exit.consumed else Exit.notConsumed
  match newState with
  | .terminal .skip => ({ lexer with state := .inStart, token := [] }, [], exit)
  | .terminal t =>
    ({ lexer with state := .inStart, token := [] }, [lexer.emitted (.terminal t) token], exit)
  | .state .inError =>
    ({ lexer with state := .inStart, token := [] }, [lexer.emitted .error token], .returned)
  | .state s => ({ lexer with state := s, token := token }, [], exit)

/-- The `do` loop. The flag says whether the function returned from inside. -/
def feedRounds (ch : UInt8) (flush : Bool) :
    Nat → JSONLexer → Except Fault (JSONLexer × List Token × Bool)
  | 0, _ => .error .endlessLoop
  | fuel + 1, lexer =>
    match feedRound lexer ch with
    | (lexer, out, .returned) => .ok (lexer, out, true)
    | (lexer, out, .consumed) => .ok (lexer, out, false)
    | (lexer, out, .notConsumed) =>
      if flush then .ok (lexer, out, false)
      else feedRounds ch flush fuel lexer >>= fun (lexer, rest, returned) =>
        .ok (lexer, out ++ rest, returned)

section
variable (lexer : JSONLexer)

def JSONLexer.advance (ch : UInt8) : JSONLexer :=
  if ch = newline then { lexer with x := 0, y := lexer.y + 1 } else { lexer with x := lexer.x + 1 }

/-- What follows the loop: a token that has grown too large is emitted as it is. -/
def limitToken (out : List Token) : JSONLexer × List Token :=
  if lexer.token.length > maxTokenSize then
    ({ lexer with state := .inStart, token := [] },
      out ++ [lexer.emitted (.state lexer.state) lexer.token])
  else (lexer, out)

/-- The loop runs at most twice: a character that is not consumed leaves the
lexer in `IN_START`, which needs no lookahead. -/
def jsonLexerFeedChar (ch : UInt8) (flush : Bool) : Except Fault (JSONLexer × List Token) :=
  feedRounds ch flush 2 (lexer.advance ch) >>= fun (lexer, out, returned) =>
    .ok (if returned then (lexer, out) else limitToken lexer out)

def jsonLexerFeed (buffer : Bytes) : Except Fault (JSONLexer × List Token) :=
  Transducers.feed (fun lexer ch => jsonLexerFeedChar lexer ch false) lexer buffer

def jsonLexerFlush : Except Fault (JSONLexer × List Token) :=
  if lexer.state = .inStart then .ok (lexer, []) else jsonLexerFeedChar lexer 0 true

/-! ## One character -/

/-- The entries for 0 are those of `TERMINAL`, never a state to go on in. -/
theorem jsonLexer_zero (s : LexerState) : ∀ s', s' ≠ .inError → jsonLexer s 0 ≠ .state s' := by
  intro s' hne h
  cases s <;> cases h <;> exact hne rfl

/-- The tokens a completed token of type `t` leads to. -/
def JSONLexer.complete (t : Terminal) (token : Bytes) : List Token :=
  if t = .skip then [] else [lexer.emitted (.terminal t) token]

def JSONLexer.restart : JSONLexer :=
  { lexer with state := .inStart, token := [] }

end

variable {t : Terminal}

section
variable {lexer : JSONLexer} {ch : UInt8}

theorem feedRound_state {s : LexerState} (h : jsonLexer lexer.state ch = .state s)
    (hne : s ≠ .inError) :
    feedRound lexer ch =
      ({ lexer with state := s, token := lexer.token ++ [ch] }, [], .consumed) := by
  have look : terminalNeededLookahead lexer.state (.state s) = false :=
    beq_false_of_ne (jsonLexer_zero _ s hne)
  unfold feedRound
  rw [h]
  dsimp only
  rw [look]
  cases s <;> first | rfl | exact absurd rfl hne

theorem feedRound_error (h : jsonLexer lexer.state ch = .none) :
    ∃ token, feedRound lexer ch = (lexer.restart, [lexer.emitted .error token], .returned) := by
  unfold feedRound
  rw [h]
  exact ⟨_, rfl⟩

theorem feedRound_accept (h : jsonLexer lexer.state ch = .terminal t)
    (hne : jsonLexer lexer.state 0 ≠ .terminal t) :
    feedRound lexer ch =
      (lexer.restart, lexer.complete t (lexer.token ++ [ch]), .consumed) := by
  have look : terminalNeededLookahead lexer.state (.terminal t) = false := beq_false_of_ne hne
  unfold feedRound
  rw [h]
  dsimp only
  rw [look]
  cases t <;> rfl

theorem feedRound_lookahead (h : jsonLexer lexer.state ch = .terminal t)
    (hz : jsonLexer lexer.state 0 = .terminal t) :
    feedRound lexer ch = (lexer.restart, lexer.complete t lexer.token, .notConsumed) := by
  have look : terminalNeededLookahead lexer.state (.terminal t) = true := by
    rw [terminalNeededLookahead, hz, beq_self_eq_true]
  unfold feedRound
  rw [h]
  dsimp only
  rw [look]
  cases t <;> rfl

/-- A pass is the last one unless the character is a lookahead. -/
theorem feedRounds_last (flush : Bool) (look : ∀ t, jsonLexer lexer.state ch = .terminal t →
      jsonLexer lexer.state 0 ≠ .terminal t) :
    ∃ r, ∀ fuel, feedRounds ch flush (fuel + 1) lexer = .ok r := by
  unfold feedRounds
  cases hn : jsonLexer lexer.state ch with
  | terminal t =>
    rw [feedRound_accept hn (look t hn)]
    exact ⟨_, fun _ => rfl⟩
  | state s =>
    by_cases he : s = .inError
    · subst he
      obtain ⟨token, h⟩ := feedRound_error hn
      rw [h]
      exact ⟨_, fun _ => rfl⟩
    · rw [feedRound_state hn he]
      exact ⟨_, fun _ => rfl⟩

/-- In `IN_START` no lookahead is needed: it does not matter how often the loop may still run. -/
theorem feedRounds_start (hs : lexer.state = .inStart) (ch : UInt8) (flush : Bool) :
    ∃ r, ∀ fuel, feedRounds ch flush (fuel + 1) lexer = .ok r :=
  feedRounds_last flush fun t _ h => by rw [hs] at h; cases h

theorem feedRounds_ok (flush : Bool) : ∃ r, feedRounds ch flush 2 lexer = .ok r := by
  by_cases look : ∃ t, jsonLexer lexer.state ch = .terminal t ∧
      jsonLexer lexer.state 0 = .terminal t
  · obtain ⟨t, hn, hz⟩ := look
    rw [feedRounds, feedRound_lookahead hn hz]
    cases flush with
    | true => exact ⟨_, rfl⟩
    | false =>
      have start : lexer.restart.state = .inStart := rfl
      obtain ⟨r, h⟩ := feedRounds_start start ch false
      exact ⟨_, Runs.bind_ok_iff.mpr ⟨_, h 0, rfl⟩⟩
  · obtain ⟨r, h⟩ := feedRounds_last flush fun t hn hz => look ⟨t, hn, hz⟩
    exact ⟨r, h 1⟩

end

/-- The lexer accepts every character in every state. -/
theorem jsonLexerFeedChar_ok (lexer : JSONLexer) (ch : UInt8) (flush : Bool) :
    ∃ l out, jsonLexerFeedChar lexer ch flush = .ok (l, out) := by
  obtain ⟨r, h⟩ := feedRounds_ok flush
  unfold jsonLexerFeedChar
  rw [h]
  exact ⟨_, _, rfl⟩

theorem JSONLexer.advance_state (lexer : JSONLexer) (ch : UInt8) :
    (lexer.advance ch).state = lexer.state ∧ (lexer.advance ch).token = lexer.token := by
  unfold JSONLexer.advance
  split <;> exact ⟨rfl, rfl⟩

/-- A character that ends the token before it is read again from `IN_START`. -/
theorem jsonLexerFeedChar_lookahead {lexer l : JSONLexer} {ch : UInt8} {out : List Token}
    (h : jsonLexer lexer.state ch = .terminal t) (hz : jsonLexer lexer.state 0 = .terminal t)
    (hr : jsonLexerFeedChar lexer.restart ch false = .ok (l, out)) :
    jsonLexerFeedChar lexer ch false =
      .ok (l, (lexer.advance ch).complete t lexer.token ++ out) := by
  obtain ⟨hs, ht⟩ := lexer.advance_state ch
  have again : lexer.restart.advance ch = (lexer.advance ch).restart := by
    unfold JSONLexer.advance
    split <;> rfl
  obtain ⟨⟨m, o, returned⟩, hm, hl⟩ := Runs.bind_ok_iff.mp hr
  have start : (lexer.advance ch).restart.state = .inStart := rfl
  obtain ⟨r, same⟩ := feedRounds_start start ch false
  rw [again, same 1, ← same 0] at hm
  have rounds : feedRounds ch false 2 (lexer.advance ch) =
      .ok (m, (lexer.advance ch).complete t lexer.token ++ o, returned) := by
    rw [feedRounds, feedRound_lookahead (hs ▸ h) (hs ▸ hz), ht]
    exact Runs.bind_ok_iff.mpr ⟨_, hm, rfl⟩
  refine Runs.bind_ok_iff.mpr ⟨_, rounds, ?_⟩
  cases returned with
  | true => cases hl; rfl
  | false =>
    simp only [Bool.false_eq_true, if_false, limitToken] at hl ⊢
    split at hl
    · next long => cases hl; rw [if_pos long, List.append_assoc]
    · next short => cases hl; rw [if_neg short]

end QemuStm32.Json
