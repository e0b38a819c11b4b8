import QemuStm32.Json.Lexer

/-!
# The JSON streamer

`json-streamer.c` collects the tokens of the lexer and cuts them into messages
by counting braces and brackets.

`resynchronises`: the byte 0xFF brings the parser back to its initial state from
wherever it is, up to the position counters.
-/

namespace QemuStm32.Json

open Ascii List Runs Transducers

/-- `MAX_NESTING`. -/
def maxNesting : Int := 1 <<< 10

structure JSONMessageParser where
  lexer : JSONLexer
  braceCount : Int
  bracketCount : Int
  tokens : List Token
  tokenSize : Nat
  deriving DecidableEq, Repr

/-- What the emitter of the streamer is called with: the collected tokens, or
the `NULL` list after an error. -/
abbrev Message := Option (List Token)

def jsonMessageParserInit : JSONMessageParser := ⟨jsonLexerInit, 0, 0, [], 0⟩

/-- The change an operator makes to the two counts: braces, then brackets. -/
def operatorNesting (ch : UInt8) : Int × Int :=
  if ch = lbrace then (1, 0)
  else if ch = rbrace then (-1, 0)
  else if ch = lbracket then (0, 1)
  else if ch = rbracket then (0, -1)
  else (0, 0)

def Token.nesting (t : Token) : Int × Int :=
  if t.type = .terminal .operator then operatorNesting (t.token.headD 0) else (0, 0)

section
variable (parser : JSONMessageParser)

/-- The token counted and appended, before it is decided whether to emit. -/
def JSONMessageParser.collect (t : Token) : JSONMessageParser :=
  { parser with
    braceCount := parser.braceCount + t.nesting.1
    bracketCount := parser.bracketCount + t.nesting.2
    tokens := parser.tokens ++ [t]
    tokenSize := parser.tokenSize + t.token.length }

/-- The streamer after `out_emit`. -/
def JSONMessageParser.emptied : JSONMessageParser :=
  { parser with braceCount := 0, bracketCount := 0, tokens := [], tokenSize := 0 }

/-- The message ends here: the counts are balanced or negative, or a limit is
passed. -/
def JSONMessageParser.full : Bool :=
  parser.braceCount < 0 || parser.bracketCount < 0 ||
    (parser.braceCount == 0 && parser.bracketCount == 0) ||
    parser.tokenSize > maxTokenSize || parser.bracketCount > maxNesting ||
    parser.braceCount > maxNesting

def jsonMessageProcessToken (t : Token) : JSONMessageParser × List Message :=
  let parser := parser.collect t
  if t.type = .error then (parser.emptied, [none])
  else if parser.full then (parser.emptied, [some parser.tokens])
  else (parser, [])

end

def processTokens : JSONMessageParser → List Token → JSONMessageParser × List Message
  | parser, [] => (parser, [])
  | parser, t :: ts =>
    let (parser, out) := jsonMessageProcessToken parser t
    let (parser, rest) := processTokens parser ts
    (parser, out ++ rest)

section
variable (parser : JSONMessageParser)

/-- The emitter of the lexer is `json_message_process_token`: the tokens of a
character are processed before the next character is read. -/
def feedParserChar (ch : UInt8) : Except Fault (JSONMessageParser × List Message) :=
  jsonLexerFeedChar parser.lexer ch false >>= fun (lexer, out) =>
    .ok (processTokens { parser with lexer := lexer } out)

def jsonMessageParserFeed (buffer : Bytes) : Except Fault (JSONMessageParser × List Message) :=
  feed feedParserChar parser buffer

def jsonMessageParserFlush : Except Fault (JSONMessageParser × List Message) :=
  jsonLexerFlush parser.lexer >>= fun (lexer, out) =>
    .ok (processTokens { parser with lexer := lexer } out)

/-! ## The lexer of a parser -/

theorem feedParserChar_ok (ch : UInt8) : ∃ p out, feedParserChar parser ch = .ok (p, out) := by
  obtain ⟨l, out, h⟩ := jsonLexerFeedChar_ok parser.lexer ch false
  unfold feedParserChar
  rw [h]
  exact ⟨_, _, rfl⟩

end

/-! ## Positions are carried along and read by nothing -/

def Token.plain (t : Token) : Token := { t with x := 0, y := 0 }

def JSONLexer.plain (lexer : JSONLexer) : JSONLexer := { lexer with x := 0, y := 0 }

/-- A parser without its position counters. -/
def JSONMessageParser.plain (parser : JSONMessageParser) : JSONMessageParser :=
  { parser with lexer := parser.lexer.plain, tokens := parser.tokens.map Token.plain }

def plainMessages (out : List Message) : List Message := out.map (Option.map (List.map Token.plain))

variable {l l' t t' : JSONLexer} {ch : UInt8} {flush : Bool} {out out' : List Token}
  {p p' : JSONMessageParser}

theorem JSONLexer.plain_eq_iff : l.plain = l'.plain ↔ l.state = l'.state ∧ l.token = l'.token := by
  simp [JSONLexer.plain]

theorem feedRound_plain (h : l.plain = l'.plain) (ch : UInt8) :
    (feedRound l ch).1.plain = (feedRound l' ch).1.plain ∧
      (feedRound l ch).2.1.map Token.plain = (feedRound l' ch).2.1.map Token.plain ∧
      (feedRound l ch).2.2 = (feedRound l' ch).2.2 := by
  obtain ⟨hs, ht⟩ := JSONLexer.plain_eq_iff.mp h
  unfold feedRound
  rw [hs, ht]
  dsimp only
  split <;> exact ⟨rfl, rfl, rfl⟩

theorem feedRounds_plain {fuel : Nat} (h : l.plain = l'.plain) {r r' : Bool}
    (ht : feedRounds ch flush fuel l = .ok (t, out, r))
    (ht' : feedRounds ch flush fuel l' = .ok (t', out', r')) :
    t.plain = t'.plain ∧ out.map Token.plain = out'.map Token.plain ∧ r = r' := by
  induction fuel generalizing l l' out out' with
  | zero => cases ht
  | succ fuel ih =>
    obtain ⟨hl, ho, he⟩ := feedRound_plain h ch
    unfold feedRounds at ht ht'
    generalize feedRound l ch = a at hl ho he ht
    generalize feedRound l' ch = a' at hl ho he ht'
    obtain ⟨m, o, exit⟩ := a
    obtain ⟨m', o', exit'⟩ := a'
    subst he
    cases exit with
    | returned | consumed => cases ht; cases ht'; exact ⟨hl, ho, rfl⟩
    | notConsumed =>
      cases flush with
      | true => cases ht; cases ht'; exact ⟨hl, ho, rfl⟩
      | false =>
        obtain ⟨⟨n, rest, ret⟩, hn, ht⟩ := bind_ok_iff.mp ht
        obtain ⟨⟨n', rest', ret'⟩, hn', ht'⟩ := bind_ok_iff.mp ht'
        cases ht
        cases ht'
        obtain ⟨last, tail, same⟩ := ih hl hn hn'
        exact ⟨last, by rw [map_append, map_append, ho, tail], same⟩

theorem jsonLexerFeedChar_plain (h : l.plain = l'.plain)
    (ht : jsonLexerFeedChar l ch flush = .ok (t, out))
    (ht' : jsonLexerFeedChar l' ch flush = .ok (t', out')) :
    t.plain = t'.plain ∧ out.map Token.plain = out'.map Token.plain := by
  have advanced : (l.advance ch).plain = (l'.advance ch).plain := by
    unfold JSONLexer.advance
    split <;> exact h
  obtain ⟨⟨m, o, r⟩, hm, ht⟩ := bind_ok_iff.mp ht
  obtain ⟨⟨m', o', r'⟩, hm', ht'⟩ := bind_ok_iff.mp ht'
  obtain ⟨hl, ho, rfl⟩ := feedRounds_plain advanced hm hm'
  obtain ⟨hs, htok⟩ := JSONLexer.plain_eq_iff.mp hl
  cases r with
  | true => cases ht; cases ht'; exact ⟨hl, ho⟩
  | false =>
    simp only [Bool.false_eq_true, if_false, Except.ok.injEq, limitToken] at ht ht'
    rw [htok] at ht
    split at ht
    · next long =>
      rw [if_pos long] at ht'
      cases ht
      cases ht'
      refine ⟨rfl, ?_⟩
      rw [map_append, map_append, ho]
      simp only [JSONLexer.emitted, map_cons, Token.plain, hs, map_nil]
    · next short =>
      rw [if_neg short] at ht'
      cases ht
      cases ht'
      exact ⟨hl, ho⟩

theorem Token.nesting_plain (t : Token) : t.plain.nesting = t.nesting := rfl

theorem jsonMessageProcessToken_plain (h : p.plain = p'.plain) {t t' : Token}
    (ht : t.plain = t'.plain) :
    (jsonMessageProcessToken p t).1.plain = (jsonMessageProcessToken p' t').1.plain ∧
      plainMessages (jsonMessageProcessToken p t).2 =
        plainMessages (jsonMessageProcessToken p' t').2 := by
  have collected : (p.collect t).plain = (p'.collect t').plain := by
    simp only [JSONMessageParser.plain, JSONMessageParser.mk.injEq] at h ⊢
    obtain ⟨hl, hb, hk, hts, hz⟩ := h
    have hn : t.nesting = t'.nesting := by rw [← t.nesting_plain, ht, Token.nesting_plain]
    have hlen : t.token = t'.token := (congrArg Token.token ht : t.plain.token = t'.plain.token)
    simp only [JSONMessageParser.collect, map_append, map_cons, map_nil, hl, hb, hk, hts, hz, hn,
      hlen, ht, and_self]
  have full : (p.collect t).full = (p'.collect t').full :=
    (congrArg JSONMessageParser.full collected :
      (p.collect t).plain.full = (p'.collect t').plain.full)
  have htype : t.type = t'.type := (congrArg Token.type ht : t.plain.type = t'.plain.type)
  have emptied : (p.collect t).emptied.plain = (p'.collect t').emptied.plain :=
    congrArg JSONMessageParser.emptied collected
  have tokens : (p.collect t).tokens.map Token.plain = (p'.collect t').tokens.map Token.plain :=
    congrArg JSONMessageParser.tokens collected
  unfold jsonMessageProcessToken
  dsimp only
  rw [full, htype]
  split
  · exact ⟨emptied, rfl⟩
  · split
    · exact ⟨emptied, by simp only [plainMessages, map_cons, Option.map_some, tokens,
        map_nil]⟩
    · exact ⟨collected, rfl⟩

theorem processTokens_plain (h : p.plain = p'.plain) {ts ts' : List Token}
    (hts : ts.map Token.plain = ts'.map Token.plain) :
    (processTokens p ts).1.plain = (processTokens p' ts').1.plain ∧
      plainMessages (processTokens p ts).2 = plainMessages (processTokens p' ts').2 := by
  induction ts generalizing p p' ts' with
  | nil =>
    obtain rfl : ts' = [] := by simpa using hts.symm
    exact ⟨h, rfl⟩
  | cons t ts ih =>
    cases ts' with
    | nil => cases hts
    | cons t' ts' =>
      obtain ⟨head, tail⟩ := cons.inj hts
      obtain ⟨next, first⟩ := jsonMessageProcessToken_plain h head
      obtain ⟨last, rest⟩ := ih next tail
      refine ⟨last, ?_⟩
      simp only [processTokens, plainMessages, map_append]
      exact congrArg₂ (· ++ ·) first rest

theorem feedParserChar_plain {q q' : JSONMessageParser} {out out' : List Message}
    (h : p.plain = p'.plain) (hq : feedParserChar p ch = .ok (q, out))
    (hq' : feedParserChar p' ch = .ok (q', out')) :
    q.plain = q'.plain ∧ plainMessages out = plainMessages out' := by
  obtain ⟨⟨l, o⟩, hl, hq⟩ := bind_ok_iff.mp hq
  obtain ⟨⟨l', o'⟩, hl', hq'⟩ := bind_ok_iff.mp hq'
  have lexers : p.lexer.plain = p'.lexer.plain := congrArg JSONMessageParser.lexer h
  obtain ⟨same, tokens⟩ := jsonLexerFeedChar_plain lexers hl hl'
  have moved : ({ p with lexer := l }).plain =
      ({ p' with lexer := l' }).plain := by
    simp only [JSONMessageParser.plain, JSONMessageParser.mk.injEq] at h ⊢
    exact ⟨same, h.2⟩
  have result := processTokens_plain moved tokens
  have e := Except.ok.inj hq
  have e' := Except.ok.inj hq'
  rw [e, e'] at result
  exact result

/-! ## The byte 0xFF -/

/-- The initial state up to the position counters of the lexer. -/
structure JSONMessageParser.Initial (parser : JSONMessageParser) : Prop where
  state : parser.lexer.state = .inStart
  token : parser.lexer.token = []
  braceCount : parser.braceCount = 0
  bracketCount : parser.bracketCount = 0
  tokens : parser.tokens = []
  tokenSize : parser.tokenSize = 0

theorem JSONMessageParser.Initial.plain_eq {parser : JSONMessageParser} (h : parser.Initial) :
    parser.plain = jsonMessageParserInit.plain := by
  obtain ⟨hs, ht, hb, hk, hts, hz⟩ := h
  have lexers : parser.lexer.plain = jsonMessageParserInit.lexer.plain :=
    JSONLexer.plain_eq_iff.mpr ⟨hs, ht⟩
  simp only [JSONMessageParser.plain, lexers, hb, hk, hts, hz]
  rfl

theorem jsonLexer_ff (s : LexerState) : jsonLexer s 0xff = .none := by
  cases s <;> decide

/-- In every lexer state 0xFF is an error, and an error empties the streamer. -/
theorem feedParserChar_ff (parser : JSONMessageParser) :
    ∃ p, feedParserChar parser 0xff = .ok (p, [none]) ∧ p.Initial := by
  obtain ⟨token, h⟩ := feedRound_error (jsonLexer_ff (parser.lexer.advance 0xff).state)
  have fed : jsonLexerFeedChar parser.lexer 0xff false =
      .ok ((parser.lexer.advance 0xff).restart,
        [(parser.lexer.advance 0xff).emitted .error token]) := by
    simp only [jsonLexerFeedChar, feedRounds, h]
    rfl
  unfold feedParserChar
  rw [fed]
  exact ⟨_, rfl, rfl, rfl, rfl, rfl, rfl, rfl⟩

/-- Whatever was fed before, the byte 0xFF leaves the parser in its initial
state up to the position counters, and everything fed afterwards is emitted as
by a new parser, up to the positions recorded in the tokens. -/
theorem resynchronises (p : Bytes) :
    ∃ parser before, jsonMessageParserFeed jsonMessageParserInit (p ++ [0xff]) =
        .ok (parser, before ++ [none]) ∧
      parser.Initial ∧
      ∀ q, ∃ after out fresh out', jsonMessageParserFeed parser q = .ok (after, out) ∧
        jsonMessageParserFeed jsonMessageParserInit q = .ok (fresh, out') ∧
        plainMessages out = plainMessages out' := by
  obtain ⟨s, before, hs⟩ := feed_ok feedParserChar_ok jsonMessageParserInit p
  obtain ⟨parser, hp, initial⟩ := feedParserChar_ff s
  refine ⟨parser, before, ?_, initial, fun q => ?_⟩
  · refine feed_append_ok.mpr ⟨s, before, [none], hs, ?_, rfl⟩
    exact feed_cons_ok.mpr ⟨parser, [none], [], hp, rfl, rfl⟩
  obtain ⟨after, out, ha⟩ := feed_ok feedParserChar_ok parser q
  obtain ⟨fresh, out', hf⟩ := feed_ok feedParserChar_ok jsonMessageParserInit q
  refine ⟨after, out, fresh, out', ha, hf, ?_⟩
  refine (feed_related (R := fun a b => a.plain = b.plain) ?_ initial.plain_eq ha hf).2
  intro s s' e t out t' out' hr ht ht'
  exact feedParserChar_plain hr ht ht'

end QemuStm32.Json
