import QemuStm32.Json.Parser

/-!
# Messages and the parser

The streamer cuts the tokens by counting braces and brackets separately, the
parser matches them. They agree where it matters: whatever the parser accepts
has balanced counts, and the streamer ends a message at the first point where
the counts are balanced.

`parsed_message_used_up`: the parser leaves no token of a message it accepts.
-/

namespace QemuStm32.Json

open Ascii Runs

/-- The change a list of tokens makes to the counts of braces and brackets. -/
def net (ts : List Token) : Int × Int := (ts.map Token.nesting).sum

@[simp] theorem net_nil : net [] = 0 := rfl

@[simp] theorem net_cons (t : Token) (ts : List Token) : net (t :: ts) = t.nesting + net ts := by
  simp [net]

@[simp] theorem net_append (ts us : List Token) : net (ts ++ us) = net ts + net us := by
  simp [net]

/-! ## What the parser uses -/

/-- The parser got from `tokens` to `rest` over tokens with this net effect. -/
def Uses (tokens rest : List Token) (effect : Int × Int) : Prop :=
  ∃ used, tokens = used ++ rest ∧ net used = effect

theorem Uses.refl (tokens : List Token) : Uses tokens tokens 0 := ⟨[], rfl, rfl⟩

variable {a b : List Token} {n : Int × Int} {t : Token} {close : UInt8}
  {parser : JSONMessageParser}

theorem Uses.trans {c : List Token} {m : Int × Int} (h : Uses a b m) (h' : Uses b c n) :
    Uses a c (m + n) := by
  obtain ⟨u, rfl, hu⟩ := h
  obtain ⟨v, rfl, hv⟩ := h'
  exact ⟨u ++ v, (List.append_assoc u v c).symm, by rw [net_append, hu, hv]⟩

theorem Uses.token (t : Token) (rest : List Token) : Uses (t :: rest) rest t.nesting :=
  ⟨[t], rfl, by simp⟩

theorem Uses.cons (h : Uses a b n) : Uses (t :: a) b (t.nesting + n) :=
  (Uses.token t a).trans h

theorem nesting_of_ne (h : t.type ≠ .terminal .operator) : t.nesting = 0 := by
  unfold Token.nesting
  rw [if_neg h]
  rfl

/-- An operator the parser recognises is one the streamer counts. -/
theorem nesting_of_operator {op : UInt8} (h : tokenIsOperator t op = true) :
    t.nesting = operatorNesting op := by
  simp only [tokenIsOperator, Bool.and_eq_true, beq_iff_eq] at h
  rw [Token.nesting, if_pos h.1.1, h.1.2]

theorem Uses.length_le (h : Uses a b n) : b.length ≤ a.length := by
  obtain ⟨u, rfl, -⟩ := h
  rw [List.length_append]
  omega

variable {rest tokens : List Token}

section
variable {D : Type} {lib : FloatLib D}

/-- A parsing function leaves the counts as they were, and uses a token when it
succeeds. -/
def Accounted (tokens : List Token) (r : Parsed D (QObject D)) : Prop :=
  Uses tokens r.2.1 0 ∧ (r.1.isSome → r.2.1.length < tokens.length)

theorem Accounted.unused (tokens : List Token) (st : ParserState D) :
    Accounted tokens (none, tokens, st) :=
  ⟨.refl tokens, fun h => by cases h⟩

theorem Accounted.scalar (h : t.type ≠ .terminal .operator) (obj : Option (QObject D))
    (st : ParserState D) : Accounted (t :: rest) (obj, rest, st) := by
  refine ⟨?_, fun _ => Nat.lt_succ_self _⟩
  rw [← nesting_of_ne h]
  exact .token t rest

variable {r : Parsed D (QObject D)} {st st' : ParserState D}
  {dict dict' : List (Bytes × QObject D)}

theorem accounted_orElse {first : Except Fault (Parsed D (QObject D))} {next : Parses D}
    (hfirst : ∀ q, first = .ok q → Accounted tokens q)
    (hnext : ∀ rest st q, next rest st = .ok q → Accounted rest q) (h : orElse first next = .ok r) :
    Accounted tokens r := by
  obtain ⟨⟨obj, rest, st⟩, hq, h⟩ := bind_ok_iff.mp h
  obtain ⟨uses, fewer⟩ := hfirst _ hq
  cases obj with
  | some obj => cases h; exact ⟨uses, fewer⟩
  | none =>
    obtain ⟨uses', fewer'⟩ := hnext rest st r h
    refine ⟨by simpa using uses.trans uses', fun hs => ?_⟩
    exact Nat.lt_of_lt_of_le (fewer' hs) uses.length_le

theorem parseEscape_accounted (h : parseEscape tokens st = .ok r) : Accounted tokens r := by
  unfold parseEscape at h
  split at h
  · next ap t working hap =>
    split at h
    · next result he =>
      obtain ⟨⟨obj, ap'⟩, -, h⟩ := bind_ok_iff.mp h
      cases h
      refine Accounted.scalar ?_ obj _
      -- a token of another type is no escape the parser knows
      intro hop
      have no : ∀ value, tokenIsEscape t value = false := by
        intro value
        rw [tokenIsEscape, hop]
        rfl
      simp only [escapeObject, no, Bool.false_eq_true, if_false, Bool.or_self] at he
      cases he
    · cases h; exact .unused _ _
  · cases h; exact .unused _ _

theorem parseKeyword_accounted (h : parseKeyword tokens st = .ok r) : Accounted tokens r := by
  unfold parseKeyword at h
  split at h
  · cases h; exact .unused _ _
  next t working =>
  split at h
  · cases h; exact .unused _ _
  next ht =>
  have scalar : t.type ≠ .terminal .operator := by
    rw [not_not.mp ht]
    decide
  split at h
  · cases h; exact .scalar scalar _ _
  · split at h
    · cases h; exact .scalar scalar _ _
    · cases h; exact .unused _ _

theorem parseLiteral_accounted (h : parseLiteral lib tokens st = .ok r) : Accounted tokens r := by
  unfold parseLiteral at h
  split at h
  · cases h; exact .unused _ _
  next t working =>
  have other : ∀ k, t.type = .terminal k → k ≠ .operator → t.type ≠ .terminal .operator := by
    intro k hk hne he
    cases hk.symm.trans he
    exact hne rfl
  split at h
  · next ht =>
    obtain ⟨⟨str, st'⟩, -, h⟩ := bind_ok_iff.mp h
    cases h
    exact .scalar (other _ ht (by decide)) _ _
  iterate 2
    · next ht => cases h; exact .scalar (other _ ht (by decide)) _ _
  · cases h; exact .unused _ _

theorem Uses.operator {t : Token} {op : UInt8} (h : tokenIsOperator t op = true)
    (rest : List Token) : Uses (t :: rest) rest (operatorNesting op) := by
  rw [← nesting_of_operator h]
  exact .token t rest

/-- The end of a round of the two loops: the closing token ends it, a comma
leads to the next round. -/
theorem Uses.round {tokens working rest : List Token} {t : Token} {close : UInt8}
    (first : Uses tokens (t :: working) 0)
    (h : (tokenIsOperator t close = true ∧ rest = working) ∨
      (tokenIsOperator t comma = true ∧ Uses working rest (operatorNesting close))) :
    Uses tokens rest (operatorNesting close) := by
  obtain ⟨hclose, rfl⟩ | ⟨hcomma, more⟩ := h
  · simpa using first.trans (.operator hclose rest)
  · have e : t.nesting = 0 := nesting_of_operator hcomma
    simpa [e] using first.trans (Uses.cons more)

/-- An opening token, what is inside, and its closing token. -/
theorem Accounted.enclosed {opening : UInt8} (ho : tokenIsOperator t opening = true)
    (cancel : operatorNesting opening + operatorNesting close = 0)
    (inside : Uses tokens rest (operatorNesting close)) (obj : QObject D) (st : ParserState D) :
    Accounted (t :: tokens) (some obj, rest, st) := by
  refine ⟨?_, fun _ => Nat.lt_succ_of_le inside.length_le⟩
  rw [← cancel, ← nesting_of_operator ho]
  exact inside.cons

/-- What each function of the descent does to the counts. The loops of
`parse_object` and `parse_array` run up to the closing token. -/
structure Descends (lib : FloatLib D) (fuel : Nat) : Prop where
  value : ∀ {tokens : List Token} {st : ParserState D} {r : Parsed D (QObject D)},
    parseValue lib fuel tokens st = .ok r → Accounted tokens r
  object : ∀ {tokens : List Token} {st : ParserState D} {r : Parsed D (QObject D)},
    parseObject lib fuel tokens st = .ok r → Accounted tokens r
  array : ∀ {tokens : List Token} {st : ParserState D} {r : Parsed D (QObject D)},
    parseArray lib fuel tokens st = .ok r → Accounted tokens r
  pair : ∀ {dict dict' : List (Bytes × QObject D)} {tokens rest : List Token}
    {st st' : ParserState D},
    parsePair lib fuel dict tokens st = .ok (some dict', rest, st') → Uses tokens rest 0
  pairs : ∀ {dict dict' : List (Bytes × QObject D)} {tokens rest : List Token}
    {st st' : ParserState D},
    parsePairs lib fuel dict tokens st = .ok (some dict', rest, st') →
    Uses tokens rest (operatorNesting rbrace)
  items : ∀ {list list' : List (QObject D)} {tokens rest : List Token} {st st' : ParserState D},
    parseItems lib fuel list tokens st = .ok (some list', rest, st') →
    Uses tokens rest (operatorNesting rbracket)

section
variable {fuel : Nat} (ih : Descends lib fuel)
include ih

theorem parseValue_step (h : parseValue lib (fuel + 1) tokens st = .ok r) : Accounted tokens r := by
  refine accounted_orElse (fun q hq => ?_) (fun _ _ _ => parseLiteral_accounted) h
  refine accounted_orElse (fun q hq => ?_) (fun _ _ _ => parseKeyword_accounted) hq
  refine accounted_orElse (fun q hq => ?_) (fun _ _ _ => parseEscape_accounted) hq
  exact accounted_orElse (fun q hq => ih.object hq) (fun _ _ _ hq => ih.array hq) hq

theorem parsePair_step (h : parsePair lib (fuel + 1) dict tokens st = .ok (some dict', rest, st')) :
    Uses tokens rest 0 := by
  cases tokens with
  | nil => rw [parsePair] at h; cases h
  | cons first tokens =>
    rw [parsePair] at h
    · obtain ⟨⟨key, working, st₁⟩, hkey, h⟩ := bind_ok_iff.mp h
      have keyUses := (ih.value hkey).1
      split at h
      · cases h
      · next t working' st₂ heq =>
        cases heq
        split at h
        · next hcolon =>
          obtain ⟨⟨value, left, st₃⟩, hvalue, h⟩ := bind_ok_iff.mp h
          have valueUses := (ih.value hvalue).1
          split at h
          · next heq =>
            cases heq
            cases h
            have colonUses : Uses (t :: working') working' 0 := .operator hcolon working'
            simpa using keyUses.trans (colonUses.trans valueUses)
          · cases h
        · cases h
      · cases h
    · intro hn; cases hn

theorem parsePairs_step
    (h : parsePairs lib (fuel + 1) dict tokens st = .ok (some dict', rest, st')) :
    Uses tokens rest (operatorNesting rbrace) := by
  obtain ⟨⟨pair, working, st₁⟩, hpair, h⟩ := bind_ok_iff.mp h
  split at h
  · cases h
  · cases h
  · next t working' st₂ heq =>
    cases heq
    refine Uses.round (ih.pair hpair) ?_
    split at h
    · next hclose => cases h; exact .inl ⟨hclose, rfl⟩
    · split at h
      · next hcomma => exact .inr ⟨hcomma, ih.pairs h⟩
      · cases h

theorem parseItems_step {list list' : List (QObject D)}
    (h : parseItems lib (fuel + 1) list tokens st = .ok (some list', rest, st')) :
    Uses tokens rest (operatorNesting rbracket) := by
  obtain ⟨⟨item, working, st₁⟩, hitem, h⟩ := bind_ok_iff.mp h
  split at h
  · cases h
  · cases h
  · next t working' st₂ heq =>
    cases heq
    refine Uses.round (ih.value hitem).1 ?_
    split at h
    · next hclose => cases h; exact .inl ⟨hclose, rfl⟩
    · split at h
      · next hcomma => exact .inr ⟨hcomma, ih.items h⟩
      · cases h

theorem parseObject_step (h : parseObject lib (fuel + 1) tokens st = .ok r) :
    Accounted tokens r := by
  cases tokens with
  | nil => unfold parseObject at h; cases h; exact .unused _ _
  | cons t working =>
    unfold parseObject at h
    split at h
    · next hopen =>
      split at h
      · cases h; exact .unused _ _
      next peek after =>
      split at h
      · next hclose =>
        cases h
        exact .enclosed hopen rfl (.operator hclose after) _ _
      · obtain ⟨⟨dict, left, st₁⟩, hpairs, h⟩ := bind_ok_iff.mp h
        split at h
        · next heq =>
          cases heq
          cases h
          exact .enclosed hopen rfl (ih.pairs hpairs) _ _
        · cases h; exact .unused _ _
    · cases h; exact .unused _ _

theorem parseArray_step (h : parseArray lib (fuel + 1) tokens st = .ok r) : Accounted tokens r := by
  cases tokens with
  | nil => unfold parseArray at h; cases h; exact .unused _ _
  | cons t working =>
    unfold parseArray at h
    split at h
    · next hopen =>
      split at h
      · cases h; exact .unused _ _
      next peek after =>
      split at h
      · next hclose =>
        cases h
        exact .enclosed hopen rfl (.operator hclose after) _ _
      · obtain ⟨⟨list, left, st₁⟩, hitems, h⟩ := bind_ok_iff.mp h
        split at h
        · next heq =>
          cases heq
          cases h
          exact .enclosed hopen rfl (ih.items hitems) _ _
        · cases h; exact .unused _ _
    · cases h; exact .unused _ _

end

theorem descends (lib : FloatLib D) (fuel : Nat) : Descends lib fuel := by
  induction fuel with
  | zero =>
    constructor <;> intros <;> rename_i h <;>
      cases h
  | succ fuel ih =>
    exact ⟨parseValue_step ih, parseObject_step ih, parseArray_step ih, parsePair_step ih,
      parsePairs_step ih, parseItems_step ih⟩

end

/-! ## What the streamer emits -/

/-- The collected tokens account for the counts, and no beginning of them is
balanced. -/
structure JSONMessageParser.Collecting (parser : JSONMessageParser) : Prop where
  counts : (parser.braceCount, parser.bracketCount) = net parser.tokens
  unbalanced : ∀ us, us ≠ [] → us <+: parser.tokens → net us ≠ 0

/-- No proper beginning of a message is balanced. -/
def Minimal (message : List Token) : Prop :=
  ∀ us, us ≠ [] → us <+: message → us ≠ message → net us ≠ 0

theorem collecting_emptied (parser : JSONMessageParser) : parser.emptied.Collecting := by
  refine ⟨rfl, fun us hne hp => ?_⟩
  exact absurd (List.prefix_nil.mp hp) hne

theorem collecting_init : jsonMessageParserInit.Collecting :=
  collecting_emptied jsonMessageParserInit

theorem processToken_collecting {p : JSONMessageParser} {out : List Message}
    (h : parser.Collecting) (hp : jsonMessageProcessToken parser t = (p, out)) :
    p.Collecting ∧ ∀ message, some message ∈ out → Minimal message := by
  have counts : ((parser.collect t).braceCount, (parser.collect t).bracketCount) =
      net (parser.collect t).tokens := by
    simp only [JSONMessageParser.collect, net_append, ← h.counts, net_cons, net_nil, add_zero]
    rfl
  have minimal : Minimal (parser.collect t).tokens := by
    intro us hne hpre hall
    rcases List.prefix_concat_iff.mp hpre with heq | hpre
    · exact absurd heq hall
    · exact h.unbalanced us hne hpre
  unfold jsonMessageProcessToken at hp
  dsimp only at hp
  split at hp
  · cases hp
    refine ⟨collecting_emptied _, fun message hm => ?_⟩
    rw [List.mem_singleton] at hm
    cases hm
  split at hp
  · cases hp
    refine ⟨collecting_emptied _, fun message hm => ?_⟩
    rw [List.mem_singleton] at hm
    cases hm
    exact minimal
  · next notFull =>
    cases hp
    refine ⟨⟨counts, fun us hne hpre => ?_⟩, fun message hm => by cases hm⟩
    by_cases hall : us = (parser.collect t).tokens
    · -- balanced counts would have ended the message
      intro hz
      rw [hall, ← counts] at hz
      apply notFull
      simp only [Prod.mk_eq_zero] at hz
      simp [JSONMessageParser.full, hz.1, hz.2]
    · exact minimal us hne hpre hall

theorem processTokens_minimal (h : parser.Collecting) (ts : List Token) :
    ∀ message, some message ∈ (processTokens parser ts).2 → Minimal message := by
  induction ts generalizing parser with
  | nil => intro message hm; cases hm
  | cons t ts ih =>
    intro message hm
    obtain ⟨next, first⟩ := processToken_collecting h (Prod.mk.eta).symm
    rcases List.mem_append.mp hm with hm | hm
    · exact first message hm
    · exact ih next message hm

/-- Whatever the parser accepts of an emitted message is the whole message. -/
theorem parsed_message_used_up {D : Type} (lib : FloatLib D) (ts : List Token)
    {message : List Token} (hm : some message ∈ (processTokens jsonMessageParserInit ts).2)
    {ap : Option (List (VaArg D))} {obj : QObject D} {st : ParserState D}
    (h : jsonParserParseErr lib (some message) ap = .ok (some obj, rest, st)) : rest = [] := by
  obtain ⟨⟨used, heq, hnet⟩, fewer⟩ := (descends lib _).value h
  have shorter := fewer rfl
  have nonempty : used ≠ [] := by
    rintro rfl
    subst heq
    exact Nat.lt_irrefl _ shorter
  by_contra left
  have proper : used ≠ message := by
    intro he
    rw [he] at heq
    exact left (List.self_eq_append_right.mp heq)
  have isPrefix : used <+: message := ⟨rest, heq.symm⟩
  exact processTokens_minimal collecting_init ts message hm used nonempty isPrefix proper hnet

end QemuStm32.Json
