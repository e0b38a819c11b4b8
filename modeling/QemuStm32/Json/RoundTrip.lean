import QemuStm32.Json.Accepting
import QemuStm32.Json.Writing

/-!
# Printing and reading back

`qobject_from_json` gives the text of every tree within the limits the value of
the tree, so an object comes back from its text, in one line or indented.
-/

namespace QemuStm32.Json

open Ascii Runs Transducers List

/-! ## Texts hold no NUL -/

theorem blank_zero_notMem {ws : Bytes} (h : Blank ws) : 0 ∉ ws :=
  fun hm => absurd (h.1 0 hm) (by decide)

theorem strText_zero_notMem {parts : List StrPart} (h : StrWellFormed parts) :
    0 ∉ strText parts := by
  have inside := (walks_parts h).zero_notMem
  simp only [strText, mem_cons, mem_append, not_mem_nil, or_false, not_or]
  exact ⟨by decide, inside, by decide⟩

theorem key_zero_notMem {k : Key} (h : k.WellFormed) : 0 ∉ k.text := by
  simp only [Key.text, mem_append, mem_singleton, not_or]
  exact ⟨⟨⟨⟨blank_zero_notMem h.before, strText_zero_notMem h.parts⟩,
    blank_zero_notMem h.beforeColon⟩, by decide⟩, blank_zero_notMem h.afterColon⟩

mutual

theorem text_zero_notMem : ∀ {d : Doc}, d.WellFormed → d.NoZeroExponent → 0 ∉ d.text
  | .str _, h, _ => strText_zero_notMem h
  | .num n, h, hz => by
    obtain ⟨s, pends⟩ := pends_number h hz
    exact pends.walks.zero_notMem
  | .bool b, _, _ => (pends_bool b).walks.zero_notMem
  | .null, _, _ => pends_null.walks.zero_notMem
  | .arr items, h, hz => by
    simp only [Doc.text, mem_cons, not_or]
    exact ⟨by decide, items_zero_notMem h hz⟩
  | .emptyArr pad, h, _ | .emptyObj pad, h, _ => by
    simp only [Doc.text, mem_cons, mem_append, not_mem_nil, or_false, not_or]
    exact ⟨by decide, blank_zero_notMem h, by decide⟩
  | .obj members, h, hz => by
    simp only [Doc.text, mem_cons, not_or]
    exact ⟨by decide, members_zero_notMem h hz⟩

theorem items_zero_notMem : ∀ {its : Items}, its.WellFormed → its.NoZeroExponent → 0 ∉ its.text
  | .last before d after, h, hz => by
    simp only [Items.text, mem_append, mem_singleton, not_or]
    exact ⟨⟨⟨blank_zero_notMem h.1, text_zero_notMem h.2.1 hz⟩, blank_zero_notMem h.2.2⟩, by decide⟩
  | .more before d after rest, h, hz => by
    simp only [Items.text, mem_append, mem_cons, not_or]
    exact ⟨⟨⟨blank_zero_notMem h.1, text_zero_notMem h.2.1 hz.1⟩, blank_zero_notMem h.2.2.1⟩,
      by decide, items_zero_notMem h.2.2.2 hz.2⟩

theorem members_zero_notMem : ∀ {ms : Members}, ms.WellFormed → ms.NoZeroExponent → 0 ∉ ms.text
  | .last key d after, h, hz => by
    simp only [Members.text, mem_append, mem_singleton, not_or]
    exact ⟨⟨⟨key_zero_notMem h.1, text_zero_notMem h.2.1 hz⟩, blank_zero_notMem h.2.2⟩, by decide⟩
  | .more key d after rest, h, hz => by
    simp only [Members.text, mem_append, mem_cons, not_or]
    exact ⟨⟨⟨key_zero_notMem h.1, text_zero_notMem h.2.1 hz.1⟩, blank_zero_notMem h.2.2.1⟩,
      by decide, members_zero_notMem h.2.2.2 hz.2⟩

end

/-! ## Feeding and flushing -/

/-- Fed and flushed, the lexer emits the tokens `ks` for the text `w`. -/
def Delivers (w : Bytes) (ks : List Kind) : Prop :=
  ∃ l ts l' ts', jsonLexerFeed jsonLexerInit w = .ok (l, ts) ∧ jsonLexerFlush l = .ok (l', ts') ∧
    (ts ++ ts').map Token.kind = ks

variable {w : Bytes} {d : Doc} {D : Type}

/-- A text whose last token is complete: there is nothing to flush. -/
theorem delivers_complete {ks : List Kind} (h : Lexes .inStart [] w .inStart [] ks) :
    Delivers w ks := by
  obtain ⟨l, ts, fed, state, -, kinds⟩ := h jsonLexerInit rfl rfl
  refine ⟨l, ts, l, [], fed, ?_, by rw [append_nil, kinds]⟩
  rw [jsonLexerFlush, if_pos state]

/-- A number or a keyword is completed by the flush. -/
theorem delivers_pending {t : Terminal} {s : LexerState} (h : Pends w t s) (ht : t ≠ .skip)
    (short : w.length ≤ maxTokenSize) : Delivers w [(.terminal t, w)] := by
  have pending : Lexes .inStart [] w s w [] := h.walks.lexes (by simpa using short)
  obtain ⟨l, ts, fed, state, token, kinds⟩ := pending jsonLexerInit rfl rfl
  have notStart : l.state ≠ .inStart := by
    intro start
    have zero := h.zero
    rw [← state, start] at zero
    cases zero
  have advanced := l.advance_state 0
  have zero : jsonLexer (l.advance 0).state 0 = .terminal t := by rw [advanced.1, state, h.zero]
  have round := feedRound_lookahead zero zero
  rw [advanced.2, token] at round
  have flushed : jsonLexerFlush l = .ok ((l.advance 0).restart, (l.advance 0).complete t w) := by
    rw [jsonLexerFlush, if_neg notStart, jsonLexerFeedChar, feedRounds, round]
    rfl
  refine ⟨l, ts, _, _, fed, flushed, ?_⟩
  rw [map_append, kinds, complete_kinds, completed, if_neg ht]
  rfl

theorem delivers_doc (h : d.WellFormed) (hz : d.NoZeroExponent) (short : Short d.kinds) :
    Delivers d.text d.kinds := by
  have complete : d.isContainer = true → Delivers d.text d.kinds := by
    intro container
    have lexes := reads_doc h hz short [] .inStart [] [] (.inr container) (.nil .inStart [])
    rw [append_nil, append_nil] at lexes
    exact delivers_complete lexes
  cases d with
  | str parts => exact delivers_complete (lexes_string h (Short.cons.mp short).1)
  | num n =>
    obtain ⟨s, pends⟩ := pends_number h hz
    refine delivers_pending pends ?_ (Short.cons.mp short).1
    split <;> decide
  | bool b => exact delivers_pending (pends_bool b) (by decide) (Short.cons.mp short).1
  | null => exact delivers_pending pends_null (by decide) (Short.cons.mp short).1
  | emptyArr pad | arr items | emptyObj pad | obj members => exact complete rfl

/-- The tokens of every tree within the limits are one message. -/
theorem processTokens_doc (fits : d.Fits) {ts : List Token} (hts : ts.map Token.kind = d.kinds) :
    (processTokens jsonMessageParserInit ts).2 = [some ts] := by
  have empty : jsonMessageParserInit.Empty := ⟨rfl, rfl, rfl, rfl⟩
  cases shape_doc hts with
  | @scalar t _ noError flat =>
    have full : (jsonMessageParserInit.collect t).full = true := by
      simp [JSONMessageParser.full, JSONMessageParser.collect, flat, jsonMessageParserInit]
    simp only [processTokens, jsonMessageProcessToken, noError, if_false, full, if_true]
    rfl
  | enclosed container =>
    obtain ⟨q, -, -, run⟩ := processTokens_container container fits hts empty
    rw [run]

/-- Reading the text of a tree yields its value. -/
theorem qobjectFromJson_doc {lib : FloatLib D} (h : d.WellFormed) (hz : d.NoZeroExponent)
    (fits : d.Fits) {v : QObject D} (hv : d.value lib = some v) :
    qobjectFromJson lib d.text = .ok (some v) := by
  obtain ⟨l, ts, l', ts', fed, flushed, kinds⟩ := delivers_doc h hz fits.short
  have whole : cString d.text = d.text := cString_of_notMem (text_zero_notMem h hz)
  have first := feed_of_lexed (p := jsonMessageParserInit) fed
  have flush : jsonMessageParserFlush ((processTokens jsonMessageParserInit ts).1.withLexer l) =
      .ok (processTokens ((processTokens jsonMessageParserInit ts).1.withLexer l') ts') := by
    unfold jsonMessageParserFlush
    rw [show ((processTokens jsonMessageParserInit ts).1.withLexer l).lexer = l from rfl, flushed]
    rfl
  have messages : (processTokens jsonMessageParserInit ts).2 ++
      (processTokens ((processTokens jsonMessageParserInit ts).1.withLexer l') ts').2 =
        [some (ts ++ ts')] := by
    rw [processTokens_withLexer, ← processTokens_doc fits kinds, processTokens_append]
  have last : parseJson lib (none, none) (some (ts ++ ts')) = .ok (some v, none) := by
    simp only [parseJson, jsonParserParseErr_doc h hz hv kinds, ok_bind]
  simp only [qobjectFromJson, qobjectFromJsonv, whole, first, ok_bind, flush, messages,
    foldlM_cons, last, foldlM_nil]
  rfl

/-! ## The round trip -/

/-- The limits of the parser on the text of an object. -/
structure QObject.Fits {D : Type} (obj : QObject D) : Prop where
  dicts : (obj.depth.1 : Int) ≤ maxNesting
  lists : (obj.depth.2 : Int) ≤ maxNesting
  size : obj.tokenBytes ≤ maxTokenSize

theorem reads_back (lib : FloatLib D) (pretty : Bool) {obj : QObject D} (h : obj.Printable)
    (fits : obj.Fits) :
    ∃ v, qobjectFromJson lib (toJson lib pretty obj 0) = .ok (some v) ∧ Same obj v := by
  obtain ⟨dicts, lists, size⟩ := fits
  have room : 4 * (0 + obj.depth.1 + obj.depth.2) + 2 ≤ maxTokenSize := by
    have : maxNesting = 1024 := rfl
    have : maxTokenSize = 67108864 := rfl
    omega
  have tree : ∃ d, Written lib obj (toJson lib pretty obj 0) d := written h 0 room
  obtain ⟨d, hd⟩ := tree
  obtain ⟨v, hv, same⟩ := hd.value
  have within : d.Fits := ⟨hd.depth ▸ dicts, hd.depth ▸ lists, hd.size ▸ size⟩
  refine ⟨v, ?_, same⟩
  rw [← hd.text]
  exact qobjectFromJson_doc hd.wellFormed hd.noZeroExponent within hv

/-- What `qobject_to_json` and `qobject_to_json_pretty` write is read back as
the same object. -/
theorem json_round_trip {D : Type} (lib : FloatLib D) (obj : QObject D) (h : obj.Printable)
    (fits : obj.Fits) :
    (∃ v, qobjectFromJson lib (qobjectToJson lib obj) = .ok (some v) ∧ Same obj v) ∧
      ∃ v, qobjectFromJson lib (qobjectToJsonPretty lib obj) = .ok (some v) ∧ Same obj v :=
  ⟨reads_back lib false h fits, reads_back lib true h fits⟩

/-- A dictionary with a list of the least integer and a boolean, and a string
with a control character, behind keys of two and three bytes. -/
def sampleDict : QObject Unit :=
  .qdict [(String.utf8EncodeChar 'é', .qlist [.qint Int64.minValue, .qbool 7]),
    (String.utf8EncodeChar '€', .qstring [0x61, 0x01])]

theorem json_round_trip_sample :
    (∃ v, qobjectFromJson unitFloats (qobjectToJson unitFloats sampleDict) = .ok (some v) ∧
        Same sampleDict v) ∧
      ∃ v, qobjectFromJson unitFloats (qobjectToJsonPretty unitFloats sampleDict) = .ok (some v) ∧
        Same sampleDict v := by
  refine json_round_trip unitFloats sampleDict (.qdict (by decide) ?_ ?_)
    ⟨by decide, by decide, by decide⟩
  · intro e he
    simp only [mem_cons, not_mem_nil, or_false] at he
    rcases he with rfl | rfl
    · exact ⟨['é'], forall_mem_singleton.mpr (by decide), rfl⟩
    · exact ⟨['€'], forall_mem_singleton.mpr (by decide), rfl⟩
  · intro e he
    simp only [mem_cons, not_mem_nil, or_false] at he
    rcases he with rfl | rfl
    · refine .qlist fun o ho => ?_
      simp only [mem_cons, not_mem_nil, or_false] at ho
      rcases ho with rfl | rfl
      · exact .qint _
      · exact .qbool _
    · refine .qstring ⟨['a', '\x01'], forall_mem_cons.mpr ⟨by decide, ?_⟩, rfl⟩
      exact forall_mem_singleton.mpr (by decide)

end QemuStm32.Json
