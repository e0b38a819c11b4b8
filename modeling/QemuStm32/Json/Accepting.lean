import QemuStm32.Json.Messages
import QemuStm32.Json.Parsing

/-!
# A stream of JSON texts

Fed with objects and arrays, one after another, the streamer emits the tokens of
each as one message, and the parser turns the message into the value of the text.
-/

namespace QemuStm32.Json

open Ascii List Runs Transducers

/-! ## Collecting without emitting -/

def JSONMessageParser.collectAll (parser : JSONMessageParser) (ts : List Token) :
    JSONMessageParser :=
  ts.foldl JSONMessageParser.collect parser

section
variable (p : JSONMessageParser) (ts us : List Token)

theorem collectAll_append : p.collectAll (ts ++ us) = (p.collectAll ts).collectAll us :=
  foldl_append

/-- The bytes of the tokens. -/
def tokensSize (ts : List Token) : Nat := kindsSize (ts.map Token.kind)

@[simp] theorem tokensSize_nil : tokensSize [] = 0 := rfl

@[simp] theorem tokensSize_cons (t : Token) :
    tokensSize (t :: ts) = t.token.length + tokensSize ts := by
  simp [tokensSize, kindsSize, Token.kind]

@[simp] theorem tokensSize_append : tokensSize (ts ++ us) = tokensSize ts + tokensSize us := by
  simp [tokensSize, kindsSize]

theorem collectAll_eq : p.collectAll ts = { p with
    braceCount := p.braceCount + (net ts).1
    bracketCount := p.bracketCount + (net ts).2
    tokens := p.tokens ++ ts
    tokenSize := p.tokenSize + tokensSize ts } := by
  induction ts generalizing p with
  | nil => simp [JSONMessageParser.collectAll]
  | cons t ts ih =>
    change (p.collect t).collectAll ts = _
    rw [ih]
    simp [JSONMessageParser.collect, Int.add_assoc, Nat.add_assoc]

theorem processTokens_append : processTokens p (ts ++ us) =
    ((processTokens (processTokens p ts).1 us).1,
      (processTokens p ts).2 ++ (processTokens (processTokens p ts).1 us).2) := by
  induction ts generalizing p with
  | nil => rfl
  | cons t ts ih => simp [processTokens, ih]

end

/-- Inside a message: some brace or bracket is open. -/
structure JSONMessageParser.Open (p : JSONMessageParser) : Prop where
  braces : 0 ≤ p.braceCount
  brackets : 0 ≤ p.bracketCount
  some : p.braceCount ≠ 0 ∨ p.bracketCount ≠ 0

/-- Within the limits of a message. -/
structure JSONMessageParser.Below (p : JSONMessageParser) : Prop where
  braces : p.braceCount ≤ maxNesting
  brackets : p.bracketCount ≤ maxNesting
  size : p.tokenSize ≤ maxTokenSize

variable {p : JSONMessageParser} {t o c : Token} {m n δ : Nat × Nat} {ts us : List Token}
  {d : Doc} {seq : List (Bytes × Doc)} {trailing : Bytes}

/-- A token behind which the message is still open is only collected. -/
theorem processToken_quiet (noError : t.type ≠ .error) (inside : (p.collect t).Open)
    (below : (p.collect t).Below) : jsonMessageProcessToken p t = (p.collect t, []) := by
  obtain ⟨hb, hk, hs⟩ := inside
  obtain ⟨lb, lk, lz⟩ := below
  have notFull : (p.collect t).full = false := by
    simp only [JSONMessageParser.full, Bool.or_eq_false_iff, decide_eq_false_iff_not,
      Bool.and_eq_false_iff, beq_eq_false_iff_ne]
    omega
  unfold jsonMessageProcessToken
  simp only [noError, if_false, notFull, Bool.false_eq_true]

theorem JSONMessageParser.Open.congr {q : JSONMessageParser} (h : p.Open)
    (braces : q.braceCount = p.braceCount) (brackets : q.bracketCount = p.bracketCount) :
    q.Open := by
  obtain ⟨hb, hk, hs⟩ := h
  exact ⟨by omega, by omega, by omega⟩

/-- Behind the token as much is open as in `p`. -/
theorem processToken_level {q : JSONMessageParser} (noError : t.type ≠ .error) (inside : p.Open)
    (braces : (q.collect t).braceCount = p.braceCount)
    (brackets : (q.collect t).bracketCount = p.bracketCount) (hb : p.braceCount + n.1 ≤ maxNesting)
    (hk : p.bracketCount + n.2 ≤ maxNesting) (hs : (q.collect t).tokenSize ≤ maxTokenSize) :
    jsonMessageProcessToken q t = (q.collect t, []) :=
  processToken_quiet noError (inside.congr braces brackets) ⟨by omega, by omega, hs⟩

/-- The tokens are collected silently wherever a message is open, nest at most
`n` deep and leave the counts as they found them. -/
structure Nests (n : Nat × Nat) (ts : List Token) : Prop where
  net : net ts = 0
  quiet : ∀ p : JSONMessageParser, p.Open → p.braceCount + n.1 ≤ maxNesting →
    p.bracketCount + n.2 ≤ maxNesting → p.tokenSize + tokensSize ts ≤ maxTokenSize →
    processTokens p ts = (p.collectAll ts, [])

theorem Nests.mono (h : Nests m ts) (first : m.1 ≤ n.1) (second : m.2 ≤ n.2) : Nests n ts :=
  ⟨h.net, fun p inside hb hk hs => h.quiet p inside (by omega) (by omega) hs⟩

theorem Nests.append (h : Nests n ts) (h' : Nests n us) : Nests n (ts ++ us) := by
  refine ⟨by rw [net_append, h.net, h'.net, add_zero], fun p inside hb hk hs => ?_⟩
  rw [tokensSize_append] at hs
  have counts : (p.collectAll ts).braceCount = p.braceCount ∧
      (p.collectAll ts).bracketCount = p.bracketCount := by simp [collectAll_eq, h.net]
  have size : (p.collectAll ts).tokenSize = p.tokenSize + tokensSize ts := by rw [collectAll_eq]
  rw [processTokens_append, h.quiet p inside hb hk (by omega), collectAll_append,
    h'.quiet _ (inside.congr counts.1 counts.2) (by omega) (by omega) (by omega)]
  rfl

/-- A token that neither opens nor closes anything. -/
theorem Nests.flat (noError : t.type ≠ .error) (hn : t.nesting = 0) (n : Nat × Nat) :
    Nests n [t] := by
  refine ⟨by simp [hn], fun p inside hb hk hs => ?_⟩
  have one : jsonMessageProcessToken p t = (p.collect t, []) :=
    processToken_level noError inside (by simp [JSONMessageParser.collect, hn])
      (by simp [JSONMessageParser.collect, hn]) hb hk hs
  simp only [processTokens, one]
  rfl

/-- The two kinds of brackets. -/
structure Brackets (o c : Token) (δ : Nat × Nat) : Prop where
  one : δ = (1, 0) ∨ δ = (0, 1)
  opens : o.nesting = (↑δ.1, ↑δ.2)
  closes : c.nesting = (-↑δ.1, -↑δ.2)
  openType : o.type ≠ .error
  closeType : c.type ≠ .error

theorem Brackets.net (h : Brackets o c δ) (hts : net ts = 0) : Json.net (o :: (ts ++ [c])) = 0 := by
  simp [h.opens, h.closes, hts]

/-- Up to the closing bracket the tokens are collected, whether or not a message
was open before. -/
theorem Brackets.collects (h : Brackets o c δ) (hts : Nests n ts) (braces : 0 ≤ p.braceCount)
    (brackets : 0 ≤ p.bracketCount) (hb : p.braceCount + ↑(n.1 + δ.1) ≤ maxNesting)
    (hk : p.bracketCount + ↑(n.2 + δ.2) ≤ maxNesting)
    (hs : p.tokenSize + tokensSize (o :: (ts ++ [c])) ≤ maxTokenSize) :
    processTokens p (o :: ts) = (p.collectAll (o :: ts), []) := by
  simp only [tokensSize_cons, tokensSize_append, tokensSize_nil] at hs
  have counts : (p.collect o).braceCount = p.braceCount + δ.1 ∧
      (p.collect o).bracketCount = p.bracketCount + δ.2 := by
    simp [JSONMessageParser.collect, h.opens]
  have size : (p.collect o).tokenSize = p.tokenSize + o.token.length := rfl
  have inside : (p.collect o).Open := by
    refine ⟨by omega, by omega, ?_⟩
    rcases h.one with rfl | rfl
    · exact .inl (by simp at counts; omega)
    · exact .inr (by simp at counts; omega)
  have below : (p.collect o).Below := ⟨by omega, by omega, by omega⟩
  have rest := hts.quiet (p.collect o) inside (by omega) (by omega) (by omega)
  simp only [processTokens, processToken_quiet h.openType inside below, rest]
  rfl

/-- Inside a message a bracketed group is collected. -/
theorem Nests.enclosed (h : Brackets o c δ) (hts : Nests n ts) :
    Nests (n.1 + δ.1, n.2 + δ.2) (o :: (ts ++ [c])) := by
  refine ⟨h.net hts.net, fun p inside hb hk hs => ?_⟩
  have front := h.collects hts inside.braces inside.brackets hb hk hs
  have all : p.collectAll (o :: (ts ++ [c])) = (p.collectAll (o :: ts)).collect c := by
    rw [← cons_append, collectAll_append]
    rfl
  have last : jsonMessageProcessToken (p.collectAll (o :: ts)) c =
      ((p.collectAll (o :: ts)).collect c, []) := by
    refine processToken_level h.closeType inside ?_ ?_ hb hk ?_
    · rw [← all, collectAll_eq, h.net hts.net]
      exact Int.add_zero _
    · rw [← all, collectAll_eq, h.net hts.net]
      exact Int.add_zero _
    · rwa [← all, collectAll_eq]
  rw [← cons_append, processTokens_append, front]
  simp only [processTokens, last, append_nil]
  rw [cons_append, all]

/-- Nothing is collected and nothing is open. -/
structure JSONMessageParser.Empty (p : JSONMessageParser) : Prop where
  braceCount : p.braceCount = 0
  bracketCount : p.bracketCount = 0
  tokens : p.tokens = []
  tokenSize : p.tokenSize = 0

theorem empty_emptied (p : JSONMessageParser) : p.emptied.Empty := ⟨rfl, rfl, rfl, rfl⟩

/-- From the empty streamer a bracketed group is one message. -/
theorem processTokens_enclosed (h : Brackets o c δ) (hts : Nests n ts) (empty : p.Empty)
    (hb : ↑(n.1 + δ.1) ≤ maxNesting) (hk : ↑(n.2 + δ.2) ≤ maxNesting)
    (hs : tokensSize (o :: (ts ++ [c])) ≤ maxTokenSize) :
    ∃ q : JSONMessageParser, q.Empty ∧ q.lexer = p.lexer ∧
      processTokens p (o :: (ts ++ [c])) = (q, [some (o :: (ts ++ [c]))]) := by
  obtain ⟨eb, ek, et, ez⟩ := empty
  have front := h.collects hts (p := p) (by omega) (by omega) (by omega) (by omega) (by omega)
  have all : p.collectAll (o :: (ts ++ [c])) = (p.collectAll (o :: ts)).collect c := by
    rw [← cons_append, collectAll_append]
    rfl
  have full : ((p.collectAll (o :: ts)).collect c).full = true := by
    rw [← all]
    simp [JSONMessageParser.full, collectAll_eq, h.net hts.net, eb, ek]
  have last : jsonMessageProcessToken (p.collectAll (o :: ts)) c =
      (((p.collectAll (o :: ts)).collect c).emptied, [some (o :: (ts ++ [c]))]) := by
    have tokens : ((p.collectAll (o :: ts)).collect c).tokens = o :: (ts ++ [c]) := by
      rw [← all, collectAll_eq, et, nil_append]
    unfold jsonMessageProcessToken
    simp only [h.closeType, if_false, full, if_true, tokens]
  refine ⟨((p.collectAll (o :: ts)).collect c).emptied, empty_emptied _, ?_, ?_⟩
  · rw [collectAll_eq]
    rfl
  · rw [← cons_append, processTokens_append, front]
    simp only [processTokens, last, append_nil, nil_append, cons_append]

/-! ## The tokens of a tree -/

theorem operator_of_kind {op : UInt8} (h : t.kind = operatorKind op) :
    t.type ≠ .error ∧ t.nesting = operatorNesting op := by
  obtain ⟨type, token⟩ := Prod.mk.inj h
  exact ⟨by simp [type], by rw [Token.nesting, if_pos type, token]; rfl⟩

theorem brackets_of_kinds {opening close : UInt8} (ho : o.kind = operatorKind opening)
    (hc : c.kind = operatorKind close) (one : δ = (1, 0) ∨ δ = (0, 1))
    (opens : operatorNesting opening = (↑δ.1, ↑δ.2))
    (closes : operatorNesting close = (-↑δ.1, -↑δ.2)) : Brackets o c δ :=
  ⟨one, (operator_of_kind ho).2.trans opens, (operator_of_kind hc).2.trans closes,
    (operator_of_kind ho).1, (operator_of_kind hc).1⟩

theorem Nests.nil (n : Nat × Nat) : Nests n [] := ⟨rfl, fun _ _ _ _ _ => rfl⟩

/-- Commas and colons. -/
theorem Nests.separator {op : UInt8} (ht : t.kind = operatorKind op)
    (hop : operatorNesting op = 0) (n : Nat × Nat) : Nests n [t] :=
  .flat (operator_of_kind ht).1 ((operator_of_kind ht).2.trans hop) n

/-- The tokens behind an opening bracket: a quiet group and the closing bracket. -/
def Closes (n : Nat × Nat) (close : UInt8) (ts : List Token) : Prop :=
  ∃ us c, ts = us ++ [c] ∧ c.kind = operatorKind close ∧ Nests n us

theorem Closes.append {close : UInt8} (h : Nests m ts) (h' : Closes n close us) :
    Closes (max m.1 n.1, max m.2 n.2) close (ts ++ us) := by
  obtain ⟨vs, c, rfl, hc, hvs⟩ := h'
  exact ⟨ts ++ vs, c, (append_assoc ts vs [c]).symm, hc,
    (h.mono (le_max_left _ _) (le_max_left _ _)).append
      (hvs.mono (le_max_right _ _) (le_max_right _ _))⟩

/-- The tokens of a tree: a single one, or brackets around a quiet group. -/
inductive Shape (d : Doc) : List Token → Prop
  | scalar {t : Token} (scalar : d.isContainer = false) (noError : t.type ≠ .error)
    (flat : t.nesting = 0) : Shape d [t]
  | enclosed {o c : Token} {us : List Token} {n δ : Nat × Nat} (container : d.isContainer = true)
    (brackets : Brackets o c δ) (inside : Nests n us) (depth : d.depth = (n.1 + δ.1, n.2 + δ.2)) :
    Shape d (o :: (us ++ [c]))

theorem Shape.nests (h : Shape d ts) : Nests d.depth ts := by
  cases h with
  | scalar scalar noError flat => exact .flat noError flat _
  | enclosed container brackets inside depth =>
    rw [depth]
    exact .enclosed brackets inside

theorem Shape.of_kind {k : Kind} (hts : ts.map Token.kind = [k]) (scalar : d.isContainer = false)
    (noError : k.1 ≠ .error) (noOperator : k.1 ≠ .terminal .operator) : Shape d ts := by
  obtain ⟨t, rfl, rfl⟩ := map_eq_singleton_iff.mp hts
  exact .scalar scalar noError (nesting_of_ne noOperator)

theorem Nests.key {k : Token} {parts : List StrPart} (hk : k.kind = stringKind parts)
    (hc : c.kind = operatorKind colon) (n : Nat × Nat) : Nests n [k, c] := by
  obtain ⟨type, -⟩ := Prod.mk.inj hk
  exact .append (.flat (by simp [type]) (nesting_of_ne (by simp [type])) n) (.separator hc rfl n)

mutual

theorem shape_doc : ∀ {d : Doc} {ts : List Token}, ts.map Token.kind = d.kinds → Shape d ts
  | .str parts, ts, hts => .of_kind hts rfl (by simp [stringKind]) (by simp [stringKind])
  | .num n, ts, hts => by
    refine .of_kind hts rfl ?_ ?_ <;> unfold Number.kind <;> split <;> simp
  | .bool b, ts, hts => .of_kind hts rfl (by simp) (by simp)
  | .null, ts, hts => .of_kind hts rfl (by simp) (by simp)
  | .emptyArr pad, ts, hts => by
    obtain ⟨o, us, rfl, ho, hus⟩ := map_eq_cons_iff.mp hts
    obtain ⟨c, rfl, hc⟩ := map_eq_singleton_iff.mp hus
    exact .enclosed rfl (brackets_of_kinds ho hc (.inr rfl) rfl rfl) (.nil (0, 0)) rfl
  | .arr items, ts, hts => by
    obtain ⟨o, us, rfl, ho, hus⟩ := map_eq_cons_iff.mp hts
    obtain ⟨us, c, rfl, hc, inside⟩ := closes_items hus
    exact .enclosed rfl (brackets_of_kinds ho hc (.inr rfl) rfl rfl) inside rfl
  | .emptyObj pad, ts, hts => by
    obtain ⟨o, us, rfl, ho, hus⟩ := map_eq_cons_iff.mp hts
    obtain ⟨c, rfl, hc⟩ := map_eq_singleton_iff.mp hus
    exact .enclosed rfl (brackets_of_kinds ho hc (.inl rfl) rfl rfl) (.nil (0, 0)) rfl
  | .obj members, ts, hts => by
    obtain ⟨o, us, rfl, ho, hus⟩ := map_eq_cons_iff.mp hts
    obtain ⟨us, c, rfl, hc, inside⟩ := closes_members hus
    exact .enclosed rfl (brackets_of_kinds ho hc (.inl rfl) rfl rfl) inside rfl

theorem closes_items : ∀ {items : Items} {ts : List Token}, ts.map Token.kind = items.kinds →
    Closes items.depth rbracket ts
  | .last before d after, ts, hts => by
    obtain ⟨us, tail, rfl, hus, htail⟩ := map_eq_append_iff.mp hts
    obtain ⟨c, rfl, hc⟩ := map_eq_singleton_iff.mp htail
    exact ⟨us, c, rfl, hc, (shape_doc hus).nests⟩
  | .more before d after rest, ts, hts => by
    obtain ⟨us, tail, rfl, hus, htail⟩ := map_eq_append_iff.mp hts
    obtain ⟨c, ws, rfl, hc, hws⟩ := map_eq_cons_iff.mp htail
    rw [← singleton_append, ← append_assoc]
    exact .append ((shape_doc hus).nests.append (.separator hc rfl _)) (closes_items hws)

theorem closes_members : ∀ {members : Members} {ts : List Token},
    ts.map Token.kind = members.kinds → Closes members.depth rbrace ts
  | .last key d after, ts, hts => by
    obtain ⟨k, c, us, tail, rfl, hk, hc, hus, htail⟩ := member_tokens hts
    obtain ⟨close, rfl, hclose⟩ := map_eq_singleton_iff.mp htail
    exact ⟨k :: c :: us, close, rfl, hclose, (Nests.key hk hc _).append (shape_doc hus).nests⟩
  | .more key d after rest, ts, hts => by
    obtain ⟨k, c, us, tail, rfl, hk, hc, hus, htail⟩ := member_tokens hts
    obtain ⟨sep, ws, rfl, hsep, hws⟩ := map_eq_cons_iff.mp htail
    have front := ((Nests.key hk hc d.depth).append (shape_doc hus).nests).append
      (.separator hsep rfl d.depth)
    simpa [Members.depth] using Closes.append front (closes_members hws)

end

/-- The tokens of an object or an array are one message. -/
theorem processTokens_container (container : d.isContainer = true) (fits : d.Fits)
    (hts : ts.map Token.kind = d.kinds) (empty : p.Empty) :
    ∃ q : JSONMessageParser, q.Empty ∧ q.lexer = p.lexer ∧
      processTokens p ts = (q, [some ts]) := by
  obtain ⟨hb, hk, hs⟩ := fits
  rw [← hts] at hs
  cases shape_doc hts with
  | scalar scalar =>
    cases container.symm.trans scalar
  | enclosed _ brackets inside depth =>
    rw [depth] at hb hk
    exact processTokens_enclosed brackets inside empty hb hk hs

/-! ## The lexer in front of the streamer -/

section
variable (p : JSONMessageParser)

def JSONMessageParser.withLexer (l : JSONLexer) : JSONMessageParser :=
  { p with lexer := l }

theorem processToken_withLexer (l : JSONLexer) (t : Token) :
    jsonMessageProcessToken (p.withLexer l) t =
      ((jsonMessageProcessToken p t).1.withLexer l, (jsonMessageProcessToken p t).2) := by
  have full : ((p.withLexer l).collect t).full = (p.collect t).full := rfl
  unfold jsonMessageProcessToken
  simp only [full]
  split
  · rfl
  · split <;> rfl

/-- The streamer never looks at its lexer while it processes tokens. -/
theorem processTokens_withLexer (l : JSONLexer) (ts : List Token) :
    processTokens (p.withLexer l) ts =
      ((processTokens p ts).1.withLexer l, (processTokens p ts).2) := by
  induction ts generalizing p with
  | nil => rfl
  | cons t ts ih => simp only [processTokens, processToken_withLexer, ih]

end

/-- Feeding the streamer is feeding its lexer and processing what that emits. -/
theorem feed_of_lexed {bs : Bytes} {l : JSONLexer} (h : jsonLexerFeed p.lexer bs = .ok (l, ts)) :
    jsonMessageParserFeed p bs =
      .ok ((processTokens p ts).1.withLexer l, (processTokens p ts).2) := by
  induction bs generalizing p ts with
  | nil =>
    cases h
    rfl
  | cons ch bs ih =>
    obtain ⟨m, out, rest, hm, hrest, rfl⟩ := feed_cons_ok.mp h
    have step : feedParserChar p ch =
        .ok ((processTokens p out).1.withLexer m, (processTokens p out).2) := by
      rw [← processTokens_withLexer]
      unfold feedParserChar
      rw [hm]
      rfl
    have next := ih (p := (processTokens p out).1.withLexer m) hrest
    rw [processTokens_withLexer] at next
    rw [processTokens_append]
    exact feed_cons_ok.mpr ⟨_, _, _, step, next, rfl⟩

/-! ## Sequences of texts -/

/-- The texts with the white space in front of each. -/
def seqText (seq : List (Bytes × Doc)) : Bytes := seq.flatMap fun x => x.1 ++ x.2.text

def seqKinds (seq : List (Bytes × Doc)) : List Kind := seq.flatMap fun x => x.2.kinds

/-- A text of an object or an array that the lexer reads as the grammar does,
behind white space. -/
structure Readable (x : Bytes × Doc) : Prop where
  blank : Blank x.1
  wellFormed : x.2.WellFormed
  noZeroExponent : x.2.NoZeroExponent
  container : x.2.isContainer = true
  fits : x.2.Fits

theorem Doc.Fits.short (h : d.Fits) : Short d.kinds := by
  intro k hk
  have one : k.2.length ≤ kindsSize d.kinds :=
    single_le_sum (fun _ _ => Nat.zero_le _) _ (mem_map_of_mem hk)
  exact one.trans h.size

theorem lexes_trailing {ws : Bytes} (h : Blank ws) : ∃ s tok, Lexes .inStart [] ws s tok [] := by
  by_cases hws : ws = []
  · exact ⟨.inStart, [], hws ▸ Lexes.nil .inStart []⟩
  · exact ⟨.inWhitespace, ws, (walks_blank h.1 hws).lexes (by simpa using h.2)⟩

theorem lexes_seq (h : ∀ x ∈ seq, Readable x) (ht : Blank trailing) :
    ∃ s tok, Lexes .inStart [] (seqText seq ++ trailing) s tok (seqKinds seq) := by
  induction seq with
  | nil => exact lexes_trailing ht
  | cons x seq ih =>
    obtain ⟨s, tok, next⟩ := ih fun y hy => h y (.tail _ hy)
    obtain ⟨blank, wf, hz, container, fits⟩ := h x mem_cons_self
    have value := reads_doc wf hz fits.short _ s tok _ (.inr container) next
    have spaced := Reads.blank blank _ s tok _ ((starts_doc wf).append _) value
    refine ⟨s, tok, ?_⟩
    simpa [seqText, seqKinds] using spaced

theorem processTokens_seq (h : ∀ x ∈ seq, Readable x) (empty : p.Empty)
    (hts : ts.map Token.kind = seqKinds seq) :
    ∃ messages : List (List Token), (processTokens p ts).2 = messages.map some ∧
      List.Forall₂ (fun x m => m.map Token.kind = x.2.kinds) seq messages := by
  induction seq generalizing p ts with
  | nil =>
    obtain rfl := map_eq_nil_iff.mp hts
    exact ⟨[], rfl, .nil⟩
  | cons x seq ih =>
    obtain ⟨us, vs, rfl, hus, hvs⟩ := map_eq_append_iff.mp hts
    obtain ⟨-, -, -, container, fits⟩ := h x mem_cons_self
    obtain ⟨q, hq, -, first⟩ := processTokens_container container fits hus empty
    obtain ⟨messages, rest, all⟩ := ih (fun y hy => h y (.tail _ hy)) hq hvs
    refine ⟨us :: messages, ?_, .cons hus all⟩
    rw [processTokens_append, first, rest]
    rfl

/-- Texts fed to a new parser come out as one message each, in order. -/
theorem feed_seq (h : ∀ x ∈ seq, Readable x) (ht : Blank trailing) :
    ∃ parser messages, jsonMessageParserFeed jsonMessageParserInit (seqText seq ++ trailing) =
        .ok (parser, messages.map some) ∧
      List.Forall₂ (fun x m => m.map Token.kind = x.2.kinds) seq messages := by
  obtain ⟨s, tok, lexes⟩ := lexes_seq h ht
  obtain ⟨l, ts, fed, -, -, hts⟩ := lexes jsonMessageParserInit.lexer rfl rfl
  have empty : jsonMessageParserInit.Empty := ⟨rfl, rfl, rfl, rfl⟩
  obtain ⟨messages, out, all⟩ := processTokens_seq h empty hts
  exact ⟨_, messages, by rw [feed_of_lexed fed, out], all⟩

/-- A message that the parser accepts is used up, and a sequence of texts of
objects and arrays is emitted as one message for each, which parses to the value
of the text if that is a QObject. -/
theorem texts_are_messages {D : Type} (lib : FloatLib D) (ap : Option (List (VaArg D))) :
    (∀ (ts message rest : List Token) (obj : QObject D) (st : ParserState D),
      some message ∈ (processTokens jsonMessageParserInit ts).2 →
      jsonParserParseErr lib (some message) ap = .ok (some obj, rest, st) → rest = []) ∧
    (∀ (seq : List (Bytes × Doc)) (trailing : Bytes), (∀ x ∈ seq, Readable x) → Blank trailing →
      ∃ parser messages,
        jsonMessageParserFeed jsonMessageParserInit (seqText seq ++ trailing) =
          .ok (parser, messages.map some) ∧
        List.Forall₂ (fun x m => m.map Token.kind = x.2.kinds ∧ ∀ v, x.2.value lib = some v →
          jsonParserParse lib (some m) ap = .ok (some v)) seq messages) := by
  refine ⟨fun ts message rest obj st hm h => parsed_message_used_up lib ts hm h, ?_⟩
  intro seq trailing h ht
  obtain ⟨parser, messages, fed, kinds⟩ := feed_seq h ht
  refine ⟨parser, messages, fed, ?_⟩
  clear fed ht
  induction kinds with
  | nil => exact .nil
  | @cons x m seq messages hm _ ih =>
    obtain ⟨-, wf, hz, -, -⟩ := h x mem_cons_self
    refine .cons ⟨hm, fun v hv => ?_⟩ (ih fun y hy => h y (.tail _ hy))
    have parsed := jsonParserParseErr_doc wf hz hv hm ap
    simp only [jsonParserParse, parsed, ok_bind]

/-- A C library whose doubles are all alike. -/
def unitFloats : FloatLib Unit := ⟨fun _ => (), fun _ => []⟩

/-- The text of an object with one member, the array of the number 1. -/
def sampleObject : Doc :=
  .obj (.last ⟨[space], [.raw 'a'], [], [space]⟩
    (.arr (.last [] (.num ⟨false, [0x31], none, none⟩) [])) [newline])

theorem readable_sample (ws : Bytes) (h : Blank ws) : Readable (ws, sampleObject) := by
  have one : ∀ ch, isWhitespace ch = true → Blank [ch] := fun ch hch =>
    blank_of_all (by simp [hch]) (by simp [maxTokenSize])
  have number : (⟨false, [0x31], none, none⟩ : Number).WellFormed := by
    refine ⟨digitRun_of_all rfl (by decide), by decide, ?_, ?_⟩ <;> rintro _ ⟨⟩
  have key : StrWellFormed [.raw 'a'] := by
    intro p hp
    obtain rfl := mem_singleton.mp hp
    exact ⟨by decide, by decide, by decide⟩
  refine ⟨h, ⟨⟨one _ rfl, key, blank_nil, one _ rfl⟩, ⟨blank_nil, number, blank_nil⟩, one _ rfl⟩,
    ?_, rfl, ?_⟩
  · rintro ⟨zero, -⟩
    revert zero
    decide
  · have fits : sampleObject.Fits := ⟨by decide, by decide, by decide⟩
    exact fits

theorem texts_are_messages_sample :
    ∃ parser m n, jsonMessageParserFeed jsonMessageParserInit
        (seqText [([], sampleObject), ([tab], sampleObject)] ++ [newline]) =
          .ok (parser, [some m, some n]) ∧
      jsonParserParse unitFloats (some m) none = .ok (some (.qdict [([0x61], .qlist [.qint 1])])) ∧
      jsonParserParse unitFloats (some n) none =
        .ok (some (.qdict [([0x61], .qlist [.qint 1])])) := by
  have readable : ∀ x ∈ [([], sampleObject), ([tab], sampleObject)], Readable x := by
    intro x hx
    simp only [mem_cons, not_mem_nil, or_false] at hx
    rcases hx with rfl | rfl
    · exact readable_sample [] blank_nil
    · exact readable_sample [tab] (blank_of_all rfl (by decide))
  obtain ⟨parser, messages, fed, parsed⟩ := (texts_are_messages unitFloats none).2 _ [newline]
    readable (blank_of_all rfl (by decide))
  cases parsed with
  | cons first rest =>
    cases rest with
    | cons second rest =>
      cases rest
      exact ⟨parser, _, _, fed, first.2 _ rfl, second.2 _ rfl⟩

/-- The text of an array of one value. -/
def arrayOf (d : Doc) : Doc := .arr (.last [] d [])

/-- The number 10 ^ 19. -/
def wideNumber : Doc := .num ⟨false, 0x31 :: replicate 19 zero, none, none⟩

/-- The number 0e5. -/
def zeroExponent : Doc := .num ⟨false, [zero], none, some ⟨0x65, none, [0x35]⟩⟩

def nulString : Doc := .str [.hex zero zero zero zero]

/-- The character U+1F600. -/
def surrogates : Doc := .str [.hex 0x64 0x38 0x33 0x64, .hex 0x64 0x65 0x30 0x30]

/-- The number or the string in a list of one. -/
def onlyItem : QObject Unit → Option (Int64 ⊕ Bytes)
  | .qlist [.qint value] => some (.inl value)
  | .qlist [.qstring string] => some (.inr string)
  | _ => none

/-- What the parser makes of the messages of a text. -/
def received (d : Doc) : Option (List (Option (Int64 ⊕ Bytes))) := do
  let (_, messages) ← (jsonMessageParserFeed jsonMessageParserInit d.text).toOption
  messages.mapM fun message => do
    let obj ← (jsonParserParse unitFloats message none).toOption
    some (obj.bind onlyItem)

/-- Arrays of values that QObjects do not have are refused, or parsed to other
values: a null, a number of more than 64 bits, a NUL, a character as a pair of
surrogates. So is a zero with an exponent, which is read as two tokens. -/
theorem texts_without_value :
    (∀ d ∈ [.null, wideNumber, nulString, surrogates, zeroExponent],
      (arrayOf d).WellFormed ∧ (arrayOf d).isContainer = true ∧ (arrayOf d).Fits) ∧
    received (arrayOf .null) = some [none] ∧
    received (arrayOf wideNumber) = some [some (.inl Int64.maxValue)] ∧
    received (arrayOf nulString) = some [some (.inr [])] ∧
    received (arrayOf surrogates) = some [some (.inr [0xed, 0xa0, 0xbd, 0xed, 0xb8, 0x80])] ∧
    received (arrayOf zeroExponent) = some [none] := by
  refine ⟨?_, by decide +kernel, by decide +kernel, by decide +kernel, by decide +kernel,
    by decide +kernel⟩
  have array {d : Doc} (wf : d.WellFormed) : (arrayOf d).WellFormed := ⟨blank_nil, wf, blank_nil⟩
  have wide : wideNumber.WellFormed :=
    ⟨digitRun_of_all rfl (by decide), by decide, by simp, by simp⟩
  have nul : nulString.WellFormed := by
    intro p hp
    obtain rfl := mem_singleton.mp hp
    exact ⟨rfl, rfl, rfl, rfl⟩
  have pair : surrogates.WellFormed := by
    intro p hp
    simp only [mem_cons, not_mem_nil, or_false] at hp
    rcases hp with rfl | rfl <;> exact ⟨rfl, rfl, rfl, rfl⟩
  have exponent : zeroExponent.WellFormed := by
    refine ⟨digitRun_of_all rfl (by decide), fun _ => rfl, by simp, ?_⟩
    rintro _ ⟨⟩
    exact ⟨.inl rfl, by simp, digitRun_of_all rfl (by decide)⟩
  simp only [forall_mem_cons, not_mem_nil, false_imp_iff, implies_true, and_true]
  exact ⟨⟨array trivial, rfl, by decide, by decide, by decide⟩,
    ⟨array wide, rfl, by decide, by decide, by decide⟩,
    ⟨array nul, rfl, by decide, by decide, by decide⟩,
    ⟨array pair, rfl, by decide, by decide, by decide⟩,
    ⟨array exponent, rfl, by decide, by decide, by decide⟩⟩

end QemuStm32.Json
