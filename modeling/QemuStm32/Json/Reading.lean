import QemuStm32.Json.Text

/-!
# Reading a JSON text

The lexer reads the text of a tree as the tokens of the tree. A token that ends
with its last character is read on its own; a number, a keyword or a run of
white space ends where a character follows that cannot belong to it.
-/

namespace QemuStm32.Json

open Ascii List Runs Transducers

/-- From state `s` with the token `tok` begun, the bytes `bs` lead to `s'` with
`tok'`, and the tokens `ks` are emitted on the way. -/
def Lexes (s : LexerState) (tok bs : Bytes) (s' : LexerState) (tok' : Bytes) (ks : List Kind) :
    Prop :=
  ∀ l : JSONLexer, l.state = s → l.token = tok →
    ∃ l' ts, jsonLexerFeed l bs = .ok (l', ts) ∧ l'.state = s' ∧ l'.token = tok' ∧
      ts.map Token.kind = ks

variable {t : Terminal} {belongs : UInt8 → Prop} {parts : List StrPart} {w ws ds : Bytes}
  {op : UInt8} {n : Number} {d : Doc}

variable {s s' s'' : LexerState} {tok tok' tok'' bs cs : Bytes} {ks ks' : List Kind} {ch : UInt8}

theorem Lexes.nil (s : LexerState) (tok : Bytes) : Lexes s tok [] s tok [] :=
  fun l hs ht => ⟨l, [], rfl, hs, ht, rfl⟩

theorem Lexes.append (h : Lexes s tok bs s' tok' ks) (h' : Lexes s' tok' cs s'' tok'' ks') :
    Lexes s tok (bs ++ cs) s'' tok'' (ks ++ ks') := by
  intro l hs ht
  obtain ⟨m, ts, hm, hs', ht', hk⟩ := h l hs ht
  obtain ⟨n, us, hn, hs'', ht'', hk'⟩ := h' m hs' ht'
  exact ⟨n, ts ++ us, feed_append_ok.mpr ⟨m, ts, us, hm, hn, rfl⟩, hs'', ht'',
    by rw [map_append, hk, hk']⟩

theorem Lexes.cons (h : Lexes s tok [ch] s' tok' ks) (h' : Lexes s' tok' cs s'' tok'' ks') :
    Lexes s tok (ch :: cs) s'' tok'' (ks ++ ks') :=
  h.append h'

/-- One character fed to the lexer, from what the first pass of the loop does. -/
theorem lexes_char {out : List Kind}
    (h : ∀ l : JSONLexer, l.state = s → l.token = tok →
      ∃ l' ts, feedRounds ch false 2 l = .ok (l', ts, false) ∧ l'.state = s' ∧ l'.token = tok' ∧
        ts.map Token.kind = out)
    (short : tok'.length ≤ maxTokenSize) : Lexes s tok [ch] s' tok' out := by
  intro l hs ht
  obtain ⟨state, token⟩ := l.advance_state ch
  obtain ⟨l', ts, hl, hs', ht', hk⟩ := h _ (state.trans hs) (token.trans ht)
  have fed : jsonLexerFeedChar l ch false = .ok (l', ts) := by
    refine bind_ok_iff.mpr ⟨_, hl, ?_⟩
    simp only [Bool.false_eq_true, if_false, limitToken, ht', if_neg (Nat.not_lt.mpr short)]
  exact ⟨l', ts, feed_cons_ok.mpr ⟨l', ts, [], fed, rfl, (append_nil ts).symm⟩, hs', ht', hk⟩

/-- A character that continues the token. -/
theorem lexes_state (h : jsonLexer s ch = .state s') (hne : s' ≠ .inError)
    (short : tok.length < maxTokenSize) : Lexes s tok [ch] s' (tok ++ [ch]) [] := by
  refine lexes_char (fun l hs ht => ?_) (by rw [length_append]; exact short)
  rw [← hs] at h
  refine ⟨{ l with state := s', token := l.token ++ [ch] }, [], ?_, rfl, by rw [ht], rfl⟩
  rw [feedRounds, feedRound_state h hne]

/-- The kinds a completed token leads to. -/
def completed (t : Terminal) (tok : Bytes) : List Kind :=
  if t = .skip then [] else [(.terminal t, tok)]

theorem complete_kinds (l : JSONLexer) (t : Terminal) (tok : Bytes) :
    (l.complete t tok).map Token.kind = completed t tok := by
  unfold JSONLexer.complete completed
  split <;> rfl

/-- A character that ends the token and belongs to it. -/
theorem lexes_accept (h : jsonLexer s ch = .terminal t) (hne : jsonLexer s 0 ≠ .terminal t) :
    Lexes s tok [ch] .inStart [] (completed t (tok ++ [ch])) := by
  refine lexes_char (fun l hs ht => ?_) (Nat.zero_le _)
  rw [← hs] at h hne
  refine ⟨l.restart, l.complete t (l.token ++ [ch]), ?_, rfl, rfl, ?_⟩
  · rw [feedRounds, feedRound_accept h hne]
  · rw [complete_kinds, ht]

/-- A character that ends the token and does not belong to it. -/
theorem lexes_lookahead (hz : jsonLexer s 0 = .terminal t) (h : jsonLexer s ch = .terminal t)
    (next : Lexes .inStart [] (ch :: bs) s' tok' ks) :
    Lexes s tok (ch :: bs) s' tok' (completed t tok ++ ks) := by
  intro l hs ht
  obtain ⟨l', ts, hl, hs', ht', hk⟩ := next l.restart rfl rfl
  obtain ⟨m, out, rest, hm, hrest, rfl⟩ := feed_cons_ok.mp hl
  rw [← hs] at hz h
  refine ⟨l', (l.advance ch).complete t l.token ++ out ++ rest,
    feed_cons_ok.mpr ⟨m, _, rest, jsonLexerFeedChar_lookahead h hz hm, hrest, rfl⟩, hs', ht', ?_⟩
  rw [append_assoc, map_append, complete_kinds, hk, ht]

/-- A path of the table on which no token ends. -/
inductive Walks : LexerState → Bytes → LexerState → Prop
  | nil (s : LexerState) : Walks s [] s
  | cons {s s' s'' : LexerState} {ch : UInt8} {bs : Bytes} (h : jsonLexer s ch = .state s')
      (hne : s' ≠ .inError) (rest : Walks s' bs s'') : Walks s (ch :: bs) s''

theorem Walks.one (h : jsonLexer s ch = .state s') (hne : s' ≠ .inError) : Walks s [ch] s' :=
  .cons h hne (.nil s')

theorem Walks.append (h : Walks s bs s') (h' : Walks s' cs s'') : Walks s (bs ++ cs) s'' := by
  induction h with
  | nil => exact h'
  | cons hn hne _ ih => exact .cons hn hne (ih h')

/-- A run of characters of one class. -/
theorem Walks.run (loop : ∀ ch, belongs ch → jsonLexer s ch = .state s)
    (hne : s ≠ .inError) (hall : ∀ ch ∈ bs, belongs ch) : Walks s bs s := by
  induction bs with
  | nil => exact .nil s
  | cons ch bs ih =>
    exact .cons (loop ch (hall ch mem_cons_self)) hne (ih fun c hc => hall c (.tail _ hc))

/-- A run of characters of one class that begins in another state. -/
theorem Walks.enter (first : ∀ ch, belongs ch → jsonLexer s ch = .state s')
    (loop : ∀ ch, belongs ch → jsonLexer s' ch = .state s') (hne : s' ≠ .inError)
    (hall : ∀ ch ∈ bs, belongs ch) (nonempty : bs ≠ []) : Walks s bs s' := by
  cases bs with
  | nil => exact absurd rfl nonempty
  | cons ch bs =>
    exact .cons (first ch (hall ch mem_cons_self)) hne
      (.run loop hne fun c hc => hall c (.tail _ hc))

theorem Walks.lexes (h : Walks s bs s')
    (short : tok.length + bs.length ≤ maxTokenSize) : Lexes s tok bs s' (tok ++ bs) [] := by
  induction h generalizing tok with
  | nil s => simpa using Lexes.nil s tok
  | @cons s s₁ s₂ ch bs hn hne _ ih =>
    rw [length_cons] at short
    have one : Lexes s tok [ch] s₁ (tok ++ [ch]) [] := lexes_state hn hne (by omega)
    have short' : (tok ++ [ch]).length + bs.length ≤ maxTokenSize := by
      rw [length_append, length_singleton]; omega
    simpa using one.cons (ih short')

/-! ## Strings -/

theorem stringRow_self {quote : UInt8} {self escape : LexerState} (hq : ch ≠ quote)
    (hb : ch ≠ backslash) (hr : (0x01 ≤ ch ∧ ch ≤ 0xbf) ∨ (0xc2 ≤ ch ∧ ch ≤ 0xf4)) :
    stringRow self escape quote ch = .state self := by
  unfold stringRow
  simp [hq, hb, hr]

/-- The bytes of an encoded character: itself, or a continuation or a first byte. -/
theorem utf8_bytes (c : Char) : ∀ ch ∈ String.utf8EncodeChar c,
    (ch.toNat = c.toNat ∧ c.toNat < 0x80) ∨ (0x80 ≤ ch.toNat ∧ ch.toNat ≤ 0xbf) ∨
      (0xc2 ≤ ch.toNat ∧ ch.toNat ≤ 0xf4) := by
  have bound : c.val.toNat < 0x110000 := by
    rcases c.valid with h | h <;> simp only [UInt32.toNat] at * <;> omega
  change ∀ ch : UInt8, ch ∈ _ → (_ = c.val.toNat ∧ c.val.toNat < 0x80) ∨ _
  unfold String.utf8EncodeChar
  dsimp only
  split_ifs <;> simp only [forall_mem_cons, UInt8.toNat_ofNat'] <;> and_intros <;>
    first | omega | exact forall_mem_nil _

/-- The bytes of a character that a string may hold unescaped. -/
theorem utf8_plain {c : Char} (h : (StrPart.raw c).WellFormed) :
    ∀ ch ∈ String.utf8EncodeChar c, ch ≠ dquote ∧ ch ≠ backslash ∧
      ((0x01 ≤ ch ∧ ch ≤ 0xbf) ∨ (0xc2 ≤ ch ∧ ch ≤ 0xf4)) := by
  obtain ⟨low, quote, slash⟩ := h
  intro ch hch
  have range := utf8_bytes c ch hch
  simp only [dquote, backslash, ne_eq, ← UInt8.toNat_inj, UInt8.le_iff_toNat_le, UInt8.reduceToNat]
  omega

theorem hexRow_state (h : isHexDigit ch = true) (next : LexerState) :
    hexRow next ch = .state next := by
  rw [hexRow, if_pos h]

/-- Inside a string every well-formed character leads back into it. -/
theorem walks_part {p : StrPart} (h : p.WellFormed) : Walks .inDqString p.text .inDqString := by
  have escape : jsonLexer .inDqString backslash = .state .inDqStringEscape := by decide
  cases p with
  | raw c =>
    refine Walks.run (fun ch hch => ?_) (by decide) (fun ch hch => hch)
    obtain ⟨hq, hb, hr⟩ := utf8_plain h ch hch
    exact stringRow_self hq hb hr
  | short e =>
    have back : jsonLexer .inDqStringEscape e = .state .inDqString := by
      simp only [StrPart.WellFormed, mem_cons, not_mem_nil, or_false] at h
      rcases h with rfl | rfl | rfl | rfl | rfl | rfl | rfl | rfl <;> decide
    exact .cons escape (by decide) (.one back (by decide))
  | hex a b c d =>
    obtain ⟨ha, hb, hc, hd⟩ := h
    have code : jsonLexer .inDqStringEscape 'u'.toUInt8 = .state .inDqUcode0 := by decide
    refine .cons escape (by decide) (.cons code (by decide) ?_)
    refine .cons (hexRow_state ha .inDqUcode1) (by decide) ?_
    refine .cons (hexRow_state hb .inDqUcode2) (by decide) ?_
    refine .cons (hexRow_state hc .inDqUcode3) (by decide) ?_
    exact .one (hexRow_state hd .inDqString) (by decide)

theorem walks_parts (h : StrWellFormed parts) :
    Walks .inDqString (parts.flatMap StrPart.text) .inDqString := by
  induction parts with
  | nil => exact .nil _
  | cons p parts ih =>
    exact (walks_part (h p mem_cons_self)).append (ih fun q hq => h q (.tail _ hq))

/-- A string is one token, complete with its closing quote. -/
theorem lexes_string (h : StrWellFormed parts) (short : (strText parts).length ≤ maxTokenSize) :
    Lexes .inStart [] (strText parts) .inStart [] [stringKind parts] := by
  have opens : jsonLexer .inStart dquote = .state .inDqString := by decide
  have walk : Walks .inStart (dquote :: parts.flatMap StrPart.text) .inDqString :=
    .cons opens (by decide) (walks_parts h)
  have inside : Lexes .inStart [] (dquote :: parts.flatMap StrPart.text) .inDqString
      (dquote :: parts.flatMap StrPart.text) [] := by
    refine walk.lexes ?_
    simp only [strText, length_cons, length_append, length_nil] at short ⊢
    omega
  have quote : jsonLexer .inDqString dquote = .terminal .string := by decide
  have look : jsonLexer .inDqString 0 ≠ .terminal .string := by decide
  have closes : Lexes .inDqString (dquote :: parts.flatMap StrPart.text) [dquote] .inStart []
      [stringKind parts] := lexes_accept quote look
  exact inside.append closes

/-! ## Tokens that end with a character that follows -/

/-- A character that ends a number and a keyword. -/
def Delimiter (ch : UInt8) : Prop := isWhitespace ch = true ∨ isOperator ch = true

/-- The token `w` is not complete before the next character, or the end of the
input, is seen. -/
structure Pends (w : Bytes) (t : Terminal) (s : LexerState) : Prop where
  walks : Walks .inStart w s
  zero : jsonLexer s 0 = .terminal t
  ends : ∀ ch, Delimiter ch → jsonLexer s ch = .terminal t

theorem delimiter_cases (h : Delimiter ch) :
    ch = space ∨ ch = tab ∨ ch = cr ∨ ch = newline ∨ ch = lbrace ∨ ch = rbrace ∨ ch = lbracket ∨
      ch = rbracket ∨ ch = comma ∨ ch = colon := by
  rcases h with h | h
  · simp only [isWhitespace, Bool.or_eq_true, beq_iff_eq] at h
    tauto
  · simp only [isOperator, Bool.or_eq_true, beq_iff_eq] at h
    tauto

/-- The states in which a number or a keyword is complete. -/
theorem ends_of_zero (hz : jsonLexer s 0 = .terminal t) (ht : t ≠ .skip) (h : Delimiter ch) :
    jsonLexer s ch = .terminal t := by
  have cases_ := delimiter_cases h
  cases s <;> cases hz <;> first
    | exact absurd rfl ht
    | (rcases cases_ with rfl | rfl | rfl | rfl | rfl | rfl | rfl | rfl | rfl | rfl <;> decide)

theorem Pends.of_walks (h : Walks .inStart w s)
    (hz : jsonLexer s 0 = .terminal t) (ht : t ≠ .skip) : Pends w t s :=
  ⟨h, hz, fun _ hch => ends_of_zero hz ht hch⟩

/-- What is read before a delimiter. -/
theorem Pends.reads (h : Pends w t s) (ht : t ≠ .skip) (short : w.length ≤ maxTokenSize)
    (hch : Delimiter ch) (next : Lexes .inStart [] (ch :: bs) s' tok' ks) :
    Lexes .inStart [] (w ++ ch :: bs) s' tok' ((.terminal t, w) :: ks) := by
  have token : Lexes .inStart [] w s w [] := h.walks.lexes (by simpa using short)
  have done : Lexes s w (ch :: bs) s' tok' (completed t w ++ ks) :=
    lexes_lookahead h.zero (h.ends ch hch) next
  rw [completed, if_neg ht] at done
  exact token.append done

theorem walks_blank (all : ∀ ch ∈ ws, isWhitespace ch = true) (hws : ws ≠ []) :
    Walks .inStart ws .inWhitespace := by
  refine .enter (fun ch hch => ?_) (fun ch hch => ?_) (by decide) all hws <;>
    simp only [jsonLexer, hch, if_true]

/-- White space is skipped. -/
theorem reads_blank (h : Blank ws)
    (begins : ∀ ch ∈ bs.head?, ch ≤ 0x7f ∧ isWhitespace ch = false) (some_ : bs ≠ [])
    (next : Lexes .inStart [] bs s' tok' ks) : Lexes .inStart [] (ws ++ bs) s' tok' ks := by
  obtain ⟨all, short⟩ := h
  by_cases hws : ws = []
  · subst hws; exact next
  cases bs with
  | nil => exact absurd rfl some_
  | cons ch bs =>
    obtain ⟨ascii, other⟩ := begins ch rfl
    have token : Lexes .inStart [] ws .inWhitespace ws [] :=
      (walks_blank all hws).lexes (by simpa using short)
    have ends : jsonLexer .inWhitespace ch = .terminal .skip := by
      simp only [jsonLexer, other, Bool.false_eq_true, if_false, terminal, ascii, if_true]
    exact token.append (lexes_lookahead (by decide) ends next)

theorem lexes_operator (h : isOperator op = true) :
    Lexes .inStart [] [op] .inStart [] [operatorKind op] := by
  have accepts : jsonLexer .inStart op = .terminal .operator := by
    simp only [isOperator, Bool.or_eq_true, beq_iff_eq] at h
    rcases h with ((((rfl | rfl) | rfl) | rfl) | rfl) | rfl <;> decide
  exact lexes_accept accepts (by decide)

/-! ## Numbers and keywords -/

/-- Whatever holds of the ten digits holds of every digit. -/
theorem digit_cases {P : UInt8 → Prop} (h : ∀ n : Fin 10, P (48 + UInt8.ofNat n))
    (hd : isDigit ch = true) : P ch := by
  simp only [isDigit, between, Bool.and_eq_true, decide_eq_true_eq, UInt8.le_iff_toNat_le] at hd
  have e0 : '0'.toUInt8.toNat = 48 := rfl
  have e9 : '9'.toUInt8.toNat = 57 := rfl
  have key := h ⟨ch.toNat - 48, by omega⟩
  have : 48 + UInt8.ofNat (ch.toNat - 48) = ch := by
    rw [← UInt8.toNat_inj]
    change (48 + (ch.toNat - 48) % 2 ^ 8) % 2 ^ 8 = ch.toNat
    omega
  rwa [this] at key

theorem digits_lead (h : ∀ n : Fin 10, jsonLexer s (48 + UInt8.ofNat n) = .state s') (ch : UInt8)
    (hd : isDigit ch = true) : jsonLexer s ch = .state s' :=
  digit_cases (P := fun ch => jsonLexer s ch = .state s') h hd

/-- The digits before the point, in a number that has begun or not. -/
theorem walks_digits (hs : s = .inStart ∨ s = .inNegNonzeroNumber)
    (h : DigitRun ds) (leading : ds.head? = some zero → ds = [zero]) :
    (ds = [zero] ∧ Walks s ds .inZero) ∨ (ds ≠ [zero] ∧ Walks s ds .inNonzeroNumber) := by
  obtain ⟨nonempty, all⟩ := h
  cases ds with
  | nil => exact absurd rfl nonempty
  | cons d ds =>
    by_cases hd : d = zero
    · subst hd
      obtain rfl : ds = [] := by simpa using leading rfl
      refine .inl ⟨rfl, .one ?_ (by decide)⟩
      rcases hs with rfl | rfl <;> decide
    · refine .inr ⟨fun he => hd (cons.inj he).1, ?_⟩
      have digit := all d mem_cons_self
      have first : jsonLexer s d = .state .inNonzeroNumber := by
        revert hd
        refine digit_cases (P := fun d => d ≠ zero → jsonLexer s d = .state .inNonzeroNumber) ?_
          digit
        rcases hs with rfl | rfl <;> decide
      exact .cons first (by decide) (.run (digits_lead (by decide)) (by decide)
        fun c hc => all c (.tail _ hc))

theorem walks_fraction (hs : s = .inZero ∨ s = .inNonzeroNumber)
    (h : DigitRun ds) : Walks s (dot :: ds) .inMantissaDigits := by
  have point : jsonLexer s dot = .state .inMantissa := by rcases hs with rfl | rfl <;> decide
  exact .cons point (by decide)
    (.enter (digits_lead (by decide)) (digits_lead (by decide)) (by decide) h.2 h.1)

theorem walks_exponent (hs : s = .inMantissaDigits ∨ s = .inNonzeroNumber)
    {e : Exponent} (h : e.WellFormed) : Walks s e.text .inDigits := by
  have letter : jsonLexer s e.letter = .state .inExpE := by
    rcases h.letter with hl | hl <;> rw [hl] <;> rcases hs with rfl | rfl <;> decide
  have loop : ∀ ch, isDigit ch = true → jsonLexer .inDigits ch = .state .inDigits :=
    digits_lead (by decide)
  refine .cons letter (by decide) ?_
  cases hsign : e.sign with
  | none =>
    exact .enter (digits_lead (by decide)) loop (by decide) h.digits.2 h.digits.1
  | some sg =>
    have sign : jsonLexer .inExpE sg = .state .inDigit := by
      rcases h.sign sg (by rw [hsign]; rfl) with rfl | rfl <;> decide
    exact .cons sign (by decide)
      (.enter (digits_lead (by decide)) loop (by decide) h.digits.2 h.digits.1)

/-- Where the sign and the digits before the point end. -/
theorem walks_integer (h : n.WellFormed) :
    ∃ s, Walks .inStart ((if n.negative then [minus] else []) ++ n.digits) s ∧
      (s = .inZero ∧ n.digits = [zero] ∨ s = .inNonzeroNumber ∧ n.digits ≠ [zero]) := by
  have sign : ∃ s, Walks .inStart (if n.negative then [minus] else []) s ∧
      (s = .inStart ∨ s = .inNegNonzeroNumber) := by
    cases n.negative with
    | false => exact ⟨_, .nil _, .inl rfl⟩
    | true => exact ⟨.inNegNonzeroNumber, .one (by decide) (by decide), .inr rfl⟩
  obtain ⟨s, hsign, hs⟩ := sign
  rcases walks_digits hs h.digits h.leading with ⟨hz, walk⟩ | ⟨hz, walk⟩
  · exact ⟨_, hsign.append walk, .inl ⟨rfl, hz⟩⟩
  · exact ⟨_, hsign.append walk, .inr ⟨rfl, hz⟩⟩

def Number.terminal (n : Number) : Terminal := if n.isInteger then .integer else .float

/-- A number is one token, unless its exponent follows a single zero. -/
theorem pends_number (h : n.WellFormed) (hz : ¬ n.ZeroExponent) :
    ∃ s, Pends n.text n.terminal s := by
  obtain ⟨s, walk, hs⟩ := walks_integer h
  have either : s = .inZero ∨ s = .inNonzeroNumber := hs.imp And.left And.left
  unfold Number.text
  cases hf : n.fraction with
  | none =>
    cases he : n.exponent with
    | none =>
      have ht : n.terminal = .integer := by simp [Number.terminal, Number.isInteger, hf, he]
      rw [ht]
      simp only [append_nil]
      refine ⟨s, .of_walks walk ?_ (by decide)⟩
      rcases either with rfl | rfl <;> decide
    | some e =>
      have ht : n.terminal = .float := by simp [Number.terminal, Number.isInteger, he]
      have nonzero : s = .inNonzeroNumber := by
        rcases hs with ⟨-, hd⟩ | ⟨hs, -⟩
        · exact absurd ⟨hd, hf, by rw [he]; simp⟩ hz
        · exact hs
      have expo := walks_exponent (.inr nonzero) (h.exponent e he)
      rw [ht]
      simp only [append_nil]
      exact ⟨_, .of_walks (walk.append expo) (by decide) (by decide)⟩
  | some ds =>
    have ht : n.terminal = .float := by simp [Number.terminal, Number.isInteger, hf]
    have frac := walks_fraction either (h.fraction ds hf)
    rw [ht]
    cases he : n.exponent with
    | none =>
      simp only [append_nil]
      exact ⟨_, .of_walks (walk.append frac) (by decide) (by decide)⟩
    | some e =>
      have expo := walks_exponent (.inl rfl) (h.exponent e he)
      exact ⟨_, .of_walks ((walk.append frac).append expo) (by decide) (by decide)⟩

theorem walks_letters (nonempty : w ≠ []) (h : ∀ ch ∈ w, between 'a' 'z' ch = true) :
    Walks .inStart w .inKeyword := by
  refine Walks.enter (fun ch hch => ?_) (fun ch hch => ?_) (by decide) h nonempty
  · have other : isWhitespace ch = false ∧ (ch == percent) = false := by
      simp only [between, Bool.and_eq_true, decide_eq_true_eq, UInt8.le_iff_toNat_le] at hch
      have low : 97 ≤ ch.toNat := hch.1
      have ne : ∀ other : UInt8, other.toNat < 97 → (ch == other) = false := by
        intro other ho
        rw [beq_eq_false_iff_ne]
        rintro rfl
        omega
      refine ⟨?_, ne percent (by decide)⟩
      rw [isWhitespace, ne space (by decide), ne tab (by decide), ne cr (by decide),
        ne newline (by decide)]
      rfl
    simp only [jsonLexer, other.1, other.2, hch, Bool.false_eq_true, if_false, if_true]
  · simp only [jsonLexer, hch, if_true]

theorem pends_keyword (nonempty : w ≠ []) (h : ∀ ch ∈ w, between 'a' 'z' ch = true) :
    Pends w .keyword .inKeyword :=
  .of_walks (walks_letters nonempty h) (by decide) (by decide)

theorem pends_bool (b : Bool) : Pends (boolText b) .keyword .inKeyword := by
  cases b <;> exact pends_keyword (by decide) (all_eq_true.mp rfl)

theorem pends_null : Pends nullText .keyword .inKeyword :=
  pends_keyword (by decide) (all_eq_true.mp rfl)

/-! ## Whole texts -/

/-- What may follow a number or a keyword. -/
def Delimited (bs : Bytes) : Prop := ∃ ch rest, bs = ch :: rest ∧ Delimiter ch

theorem delimited_blank (h : Blank ws) (hop : isOperator op = true) :
    Delimited (ws ++ op :: bs) := by
  cases ws with
  | nil => exact ⟨op, bs, rfl, .inr hop⟩
  | cons ch ws => exact ⟨ch, ws ++ op :: bs, rfl, .inl (h.1 ch mem_cons_self)⟩

/-- A text that begins with a character that no white space contains. -/
def Starts (bs : Bytes) : Prop := ∃ ch rest, bs = ch :: rest ∧ ch ≤ 0x7f ∧ isWhitespace ch = false

theorem Starts.append (h : Starts bs) (cs : Bytes) : Starts (bs ++ cs) := by
  obtain ⟨ch, rest, rfl, hch⟩ := h
  exact ⟨ch, rest ++ cs, rfl, hch⟩

theorem starts_operator (h : isOperator op = true) (bs : Bytes) : Starts (op :: bs) := by
  refine ⟨op, bs, rfl, ?_⟩
  simp only [isOperator, Bool.or_eq_true, beq_iff_eq] at h
  rcases h with ((((rfl | rfl) | rfl) | rfl) | rfl) | rfl <;> decide

theorem starts_string (parts : List StrPart) : Starts (strText parts) :=
  ⟨dquote, _, rfl, by decide⟩

theorem starts_number (h : n.WellFormed) : Starts n.text := by
  have front : Starts ((if n.negative then [minus] else []) ++ n.digits) := by
    cases n.negative with
    | true => exact ⟨minus, n.digits, rfl, by decide⟩
    | false =>
      obtain ⟨nonempty, all⟩ := h.digits
      cases hd : n.digits with
      | nil => exact absurd hd nonempty
      | cons d ds =>
        rw [hd] at all
        exact ⟨d, ds, rfl, digit_cases (P := fun d => d ≤ 0x7f ∧ isWhitespace d = false)
          (by decide) (all d mem_cons_self)⟩
  exact (front.append _).append _

theorem starts_doc (h : d.WellFormed) : Starts d.text := by
  cases d with
  | str parts => exact starts_string parts
  | num n => exact starts_number h
  | bool b => cases b <;> exact ⟨_, _, rfl, by decide⟩
  | null => exact ⟨_, _, rfl, by decide⟩
  | emptyArr pad | arr items | emptyObj pad | obj members => exact starts_operator (by decide) _

/-- `w` is read as `ks` wherever `follow` holds of what comes after it. -/
def Reads (w : Bytes) (ks : List Kind) (follow : Bytes → Prop) : Prop :=
  ∀ bs s tok ks', follow bs → Lexes .inStart [] bs s tok ks' →
    Lexes .inStart [] (w ++ bs) s tok (ks ++ ks')

/-- The tokens are short enough for the lexer. -/
def Short (ks : List Kind) : Prop := ∀ k ∈ ks, k.2.length ≤ maxTokenSize

theorem Short.append : Short (ks ++ ks') ↔ Short ks ∧ Short ks' := by
  simp only [Short, mem_append, or_imp, forall_and]

theorem Short.cons {k : Kind} : Short (k :: ks) ↔ k.2.length ≤ maxTokenSize ∧ Short ks := by
  simp only [Short, mem_cons, forall_eq_or_imp]

theorem Reads.of_lexes (h : Lexes .inStart [] w .inStart [] ks)
    (follow : Bytes → Prop) : Reads w ks follow :=
  fun _ _ _ _ _ next => h.append next

theorem Pends.reads_delimited (h : Pends w t s) (ht : t ≠ .skip)
    (short : w.length ≤ maxTokenSize) : Reads w [(.terminal t, w)] Delimited := by
  rintro bs s' tok ks' ⟨ch, rest, rfl, hch⟩ next
  exact h.reads ht short hch next

theorem Reads.blank (h : Blank ws) : Reads ws [] Starts := by
  rintro bs s tok ks' ⟨ch, rest, rfl, hch⟩ next
  refine reads_blank h ?_ (cons_ne_nil ch rest) next
  rintro c ⟨⟩
  exact hch

theorem Reads.operator (h : isOperator op = true) (follow : Bytes → Prop) :
    Reads [op] [operatorKind op] follow :=
  .of_lexes (lexes_operator h) follow

/-- One text after another. -/
theorem Reads.append {w' : Bytes} {follow follow' : Bytes → Prop}
    (h : Reads w ks follow) (h' : Reads w' ks' follow') (fits : ∀ bs, follow (w' ++ bs)) :
    Reads (w ++ w') (ks ++ ks') follow' := by
  intro bs s tok ks'' hf next
  rw [append_assoc, append_assoc]
  exact h _ _ _ _ (fits bs) (h' bs s tok ks'' hf next)

/-- Every follower will do. -/
def Anything (_ : Bytes) : Prop := True

theorem Reads.key {k : Key} (h : k.WellFormed) (short : (strText k.parts).length ≤ maxTokenSize) :
    Reads k.text [stringKind k.parts, operatorKind colon] Starts := by
  have string : Reads (strText k.parts) [stringKind k.parts] Anything :=
    .of_lexes (lexes_string h.parts short) _
  have colon_ : Reads [colon] [operatorKind colon] Anything := .operator (by decide) _
  have first := (Reads.blank h.before).append string fun bs => (starts_string k.parts).append bs
  have second := first.append (.blank h.beforeColon) fun _ => trivial
  have third := second.append colon_ (starts_operator (by decide))
  exact third.append (.blank h.afterColon) fun _ => trivial

/-- What has to follow the text of a value. -/
def Doc.Follow (d : Doc) (bs : Bytes) : Prop := Delimited bs ∨ d.isContainer = true

/-- A value with its white space and the operator behind it. -/
theorem Reads.item (h : Reads d.text d.kinds d.Follow) {after : Bytes} (blank : Blank after)
    (hop : isOperator op = true) :
    Reads (d.text ++ after ++ [op]) (d.kinds ++ [operatorKind op]) Anything := by
  intro bs s tok ks _ next
  have operator : Lexes .inStart [] (op :: bs) s tok (operatorKind op :: ks) :=
    (lexes_operator hop).append next
  have spaced : Lexes .inStart [] (after ++ op :: bs) s tok (operatorKind op :: ks) :=
    Reads.blank blank _ _ _ _ (starts_operator hop bs) operator
  simpa using h _ _ _ _ (.inl (delimited_blank blank hop)) spaced

/-- A container after its opening operator. -/
theorem Reads.opened {follow : Bytes → Prop} (hop : isOperator op = true)
    (inside : Reads w ks Anything) : Reads (op :: w) (operatorKind op :: ks) follow :=
  fun bs s tok ks' _ next => (lexes_operator hop).append (inside bs s tok ks' trivial next)

/-- White space up to the closing operator. -/
theorem Reads.closed {follow : Bytes → Prop} (hop : isOperator op = true) (blank : Blank ws) :
    Reads (ws ++ [op]) [operatorKind op] follow :=
  (Reads.blank blank).append (.operator hop _) (starts_operator hop)

theorem Reads.scalar (scalar : d.isContainer = false)
    (h : Reads w ks Delimited) : Reads w ks d.Follow :=
  fun bs s tok ks' follow => h bs s tok ks' (follow.resolve_right (by simp [scalar]))

theorem starts_item (h : d.WellFormed) (after : Bytes) (op : UInt8) (bs : Bytes) :
    Starts (d.text ++ after ++ [op] ++ bs) :=
  (((starts_doc h).append after).append [op]).append bs

mutual

/-- The lexer reads the text of a tree as its tokens. -/
theorem reads_doc : ∀ {d : Doc}, d.WellFormed → d.NoZeroExponent → Short d.kinds →
    Reads d.text d.kinds d.Follow
  | .str parts, h, _, short => .of_lexes (lexes_string h (Short.cons.mp short).1) _
  | .num n, h, hz, short => by
    obtain ⟨s, pends⟩ := pends_number h hz
    have ht : n.terminal ≠ .skip := by unfold Number.terminal; split <;> decide
    exact .scalar rfl (pends.reads_delimited ht (Short.cons.mp short).1)
  | .bool b, _, _, short =>
    .scalar rfl ((pends_bool b).reads_delimited (by decide) (Short.cons.mp short).1)
  | .null, _, _, short =>
    .scalar rfl (pends_null.reads_delimited (by decide) (Short.cons.mp short).1)
  | .emptyArr pad, h, _, _ => .opened (by decide) (.closed (by decide) h)
  | .arr items, h, hz, short => .opened (by decide) (reads_items h hz (Short.cons.mp short).2)
  | .emptyObj pad, h, _, _ => .opened (by decide) (.closed (by decide) h)
  | .obj members, h, hz, short => .opened (by decide) (reads_members h hz (Short.cons.mp short).2)

theorem reads_items : ∀ {items : Items}, items.WellFormed → items.NoZeroExponent →
    Short items.kinds → Reads items.text items.kinds Anything
  | .last before d after, ⟨hb, hd, ha⟩, hz, short => by
    have value := reads_doc hd hz (Short.append.mp short).1
    have item := value.item ha (show isOperator rbracket = true by decide)
    have whole := (Reads.blank hb).append item (starts_item hd after rbracket)
    simpa [Items.text, Items.kinds] using whole
  | .more before d after rest, ⟨hb, hd, ha, hr⟩, ⟨hz, hzr⟩, short => by
    have value := reads_doc hd hz (Short.append.mp short).1
    have item := value.item ha (show isOperator comma = true by decide)
    have others := reads_items hr hzr (Short.cons.mp (Short.append.mp short).2).2
    have front := (Reads.blank hb).append item (starts_item hd after comma)
    simpa [Items.text, Items.kinds] using front.append others fun _ => trivial

theorem reads_members : ∀ {members : Members}, members.WellFormed → members.NoZeroExponent →
    Short members.kinds → Reads members.text members.kinds Anything
  | .last key d after, ⟨hk, hd, ha⟩, hz, short => by
    obtain ⟨shortKey, short⟩ := Short.cons.mp short
    have value := reads_doc hd hz (Short.append.mp (Short.cons.mp short).2).1
    have item := value.item ha (show isOperator rbrace = true by decide)
    have whole := (Reads.key hk shortKey).append item (starts_item hd after rbrace)
    simpa [Members.text, Members.kinds] using whole
  | .more key d after rest, ⟨hk, hd, ha, hr⟩, ⟨hz, hzr⟩, short => by
    obtain ⟨shortKey, short⟩ := Short.cons.mp short
    obtain ⟨shortDoc, shortRest⟩ := Short.append.mp (Short.cons.mp short).2
    have value := reads_doc hd hz shortDoc
    have item := value.item ha (show isOperator comma = true by decide)
    have others := reads_members hr hzr (Short.cons.mp shortRest).2
    have front := (Reads.key hk shortKey).append item (starts_item hd after comma)
    simpa [Members.text, Members.kinds] using front.append others fun _ => trivial

end

end QemuStm32.Json
