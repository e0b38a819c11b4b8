import QemuStm32.Json.Decoding

/-!
# Parsing a JSON text

The recursive descent gives the tokens of a tree the value of the tree and
leaves what follows them. It does so with any argument list: a token that is no
format escape never touches it.
-/

namespace QemuStm32.Json

open Ascii List Runs

section
variable {D α : Type} {lib : FloatLib D} {t : Token} {ts us rest : List Token} {st : ParserState D}
variable {fuel : Nat}

/-- With enough fuel `parse` takes the tokens `ts` for `v` and leaves what follows them. -/
def Gives (parse : Nat → List Token → ParserState D → Except Fault (Parsed D α)) (ts : List Token)
    (v : α) : Prop :=
  ∀ fuel, 5 * ts.length ≤ fuel → ∀ rest st, parse fuel (ts ++ rest) st = .ok (some v, rest, st)

/-! ## Recognising tokens -/

theorem tokenIsOperator_of_kind {op : UInt8} (h : t.kind = operatorKind op) (c : UInt8) :
    tokenIsOperator t c = (op == c) := by
  obtain ⟨htype, htoken⟩ := Prod.mk.inj h
  simp [tokenIsOperator, htype, htoken]

theorem tokenIsOperator_of_ne (h : t.type ≠ .terminal .operator) (c : UInt8) :
    tokenIsOperator t c = false := by
  simp [tokenIsOperator, h]

theorem parseEscape_other (h : t.type ≠ .terminal .escape) :
    parseEscape (t :: ts) st = .ok (none, t :: ts, st) := by
  have no : ∀ value, tokenIsEscape t value = false := by simp [tokenIsEscape, h]
  unfold parseEscape
  cases st.ap with
  | none => rfl
  | some ap => simp [escapeObject, no]

/-! ## Scalars -/

variable {v : QObject D} {next : Parses D}

theorem orElse_some : orElse (.ok (some v, rest, st)) next = .ok (some v, rest, st) := rfl

theorem orElse_none : orElse (.ok (none, rest, st)) next = next rest st := rfl

section
variable (operator : t.type ≠ .terminal .operator) (escape : t.type ≠ .terminal .escape)
include operator escape

theorem gives_scalar
    (h : ∀ rest st, orElse (parseKeyword (t :: rest) st) (parseLiteral lib) =
      .ok (some v, rest, st)) : Gives (parseValue lib) [t] v := by
  intro fuel hf rest st
  obtain ⟨fuel, rfl⟩ := Nat.exists_eq_add_of_le' (show 2 ≤ fuel by simp at hf; omega)
  have object : parseObject lib (fuel + 1) (t :: rest) st = .ok (none, t :: rest, st) := by
    simp [parseObject, tokenIsOperator_of_ne operator]
  have array : parseArray lib (fuel + 1) (t :: rest) st = .ok (none, t :: rest, st) := by
    simp [parseArray, tokenIsOperator_of_ne operator]
  rw [singleton_append, parseValue, object, orElse_none, array, orElse_none,
    parseEscape_other escape, orElse_none, h]

/-- A token that only `parse_literal` takes. -/
theorem gives_literal (keyword : t.type ≠ .terminal .keyword)
    (h : ∀ rest st, parseLiteral lib (t :: rest) st = .ok (some v, rest, st)) :
    Gives (parseValue lib) [t] v := by
  refine gives_scalar operator escape fun rest st => ?_
  have none : parseKeyword (t :: rest) st = .ok (none, t :: rest, st) := by
    simp [parseKeyword, keyword]
  rw [none, orElse_none, h]

end

variable {parts : List StrPart} {c : Token}

theorem gives_string (ht : t.kind = stringKind parts) (h : StrWellFormed parts) {bytes : Bytes}
    (hv : strValue parts = some bytes) : Gives (parseValue lib) [t] (.qstring bytes) := by
  obtain ⟨htype, htoken⟩ := Prod.mk.inj ht
  refine gives_literal (by simp [htype]) (by simp [htype]) (by simp [htype]) fun rest st => ?_
  simp only [parseLiteral, htype, qstringFromEscapedStr_strText st htoken h hv]
  rfl

theorem gives_number {n : Number} (ht : t.kind = n.kind) (h : n.WellFormed)
    (hz : ¬ n.ZeroExponent) (hv : n.value lib = some v) : Gives (parseValue lib) [t] v := by
  obtain ⟨htype, htoken⟩ := Prod.mk.inj ht
  cases integer : n.isInteger with
  | true =>
    rw [integer, if_pos rfl] at htype
    simp only [Number.value, integer, if_true, Option.ite_none_right_eq_some] at hv
    obtain ⟨⟨low, high⟩, hv⟩ := hv
    refine gives_literal (by simp [htype]) (by simp [htype]) (by simp [htype]) fun rest st => ?_
    simp only [parseLiteral, htype, htoken, strtoll_text h integer low high, ← hv]
  | false =>
    rw [integer, if_neg (by decide)] at htype
    simp only [Number.value, integer, Bool.false_eq_true, if_false] at hv
    refine gives_literal (by simp [htype]) (by simp [htype]) (by simp [htype]) fun rest st => ?_
    simp only [parseLiteral, htype, htoken, cString_number h hz, ← hv]

theorem gives_bool {b : Bool} (ht : t.kind = (.terminal .keyword, boolText b)) :
    Gives (parseValue lib) [t] (.qbool (if b then 1 else 0)) := by
  obtain ⟨htype, htoken⟩ := Prod.mk.inj ht
  refine gives_scalar (by simp [htype]) (by simp [htype]) fun rest st => ?_
  cases b with
  | true =>
    have text : cString (boolText true) = ascii ['t', 'r', 'u', 'e'] := by decide
    simp [parseKeyword, tokenIsKeyword, htype, htoken, text, orElse_some]
  | false =>
    have text : cString (boolText false) = ascii ['f', 'a', 'l', 's', 'e'] := by decide
    have other : ¬ ascii ['f', 'a', 'l', 's', 'e'] = ascii ['t', 'r', 'u', 'e'] := by decide
    simp [parseKeyword, tokenIsKeyword, htype, htoken, text, other, orElse_some]

/-! ## Arrays -/

/-- A value does not begin with a closing bracket. -/
theorem first_kind (d : Doc) : ∃ k ks, d.kinds = k :: ks ∧
    ∀ t : Token, t.kind = k → tokenIsOperator t rbracket = false := by
  have scalar : ∀ {k : Kind}, k.1 ≠ .terminal .operator →
      ∀ t : Token, t.kind = k → tokenIsOperator t rbracket = false := by
    rintro k hk t rfl
    exact tokenIsOperator_of_ne hk rbracket
  have opening : ∀ {op : UInt8}, (op == rbracket) = false →
      ∀ t : Token, t.kind = operatorKind op → tokenIsOperator t rbracket = false := by
    intro op hop t ht
    rw [tokenIsOperator_of_kind ht, hop]
  cases d with
  | str parts => exact ⟨_, _, rfl, scalar (by simp [stringKind])⟩
  | num n =>
    refine ⟨_, _, rfl, scalar ?_⟩
    unfold Number.kind
    split <;> simp
  | bool b | null => exact ⟨_, _, rfl, scalar (by simp)⟩
  | emptyArr pad | arr items | emptyObj pad | obj members => exact ⟨_, _, rfl, opening (by decide)⟩

theorem first_item (items : Items) (h : us.map Token.kind = items.kinds) :
    ∃ peek after, us = peek :: after ∧ tokenIsOperator peek rbracket = false := by
  obtain ⟨d, tail, first⟩ : ∃ (d : Doc) (tail : List Kind), items.kinds = d.kinds ++ tail := by
    cases items <;> exact ⟨_, _, rfl⟩
  obtain ⟨k, ks, hk, no⟩ := first_kind d
  rw [first, hk] at h
  obtain ⟨peek, after, rfl, hpeek, -⟩ := map_eq_cons_iff.mp h
  exact ⟨peek, after, rfl, no peek hpeek⟩

variable {list vs : List (QObject D)}

/-- Behind the opening bracket the array is empty or a run of items. -/
theorem gives_array (ho : t.kind = operatorKind lbracket)
    (h : ∀ fuel, 5 * us.length ≤ fuel → ∀ rest st,
      parseArray lib (fuel + 1) (t :: us ++ rest) st = .ok (some v, rest, st)) :
    Gives (parseValue lib) (t :: us) v := by
  intro fuel hf rest st
  obtain ⟨fuel, rfl⟩ := Nat.exists_eq_add_of_le' (show 2 ≤ fuel by simp at hf; omega)
  have no : tokenIsOperator t lbrace = false := by rw [tokenIsOperator_of_kind ho]; decide
  have object : parseObject lib (fuel + 1) (t :: us ++ rest) st =
      .ok (none, t :: us ++ rest, st) := by
    simp [parseObject, no]
  rw [parseValue, object, orElse_none, h fuel (by simp at hf; omega)]
  rfl

/-- What follows an item decides whether the array ends. -/
theorem Gives.lastItem (h : Gives (parseValue lib) us v) (hc : c.kind = operatorKind rbracket) :
    Gives (parseItems lib · list) (us ++ [c]) (list ++ [v]) := by
  intro fuel hf rest st
  obtain ⟨fuel, rfl⟩ := Nat.exists_eq_add_of_le' (show 1 ≤ fuel by simp at hf; omega)
  have first := h fuel (by simp at hf; omega) (c :: rest) st
  simp [parseItems, first, ok_bind, tokenIsOperator_of_kind hc]

theorem Gives.moreItems (h : Gives (parseValue lib) us v) (hc : c.kind = operatorKind comma)
    (others : Gives (parseItems lib · (list ++ [v])) ts vs) :
    Gives (parseItems lib · list) (us ++ c :: ts) vs := by
  intro fuel hf rest st
  obtain ⟨fuel, rfl⟩ := Nat.exists_eq_add_of_le' (show 1 ≤ fuel by simp at hf; omega)
  have first := h fuel (by simp at hf; omega) (c :: ts ++ rest) st
  have tail := others fuel (by simp at hf; omega) rest st
  have no : tokenIsOperator c rbracket = false := by rw [tokenIsOperator_of_kind hc]; decide
  rw [cons_append] at first
  simp [parseItems, first, ok_bind, no, tokenIsOperator_of_kind hc, tail]

/-! ## Objects -/

theorem first_member (members : Members) (h : us.map Token.kind = members.kinds) :
    ∃ peek after, us = peek :: after ∧ tokenIsOperator peek rbrace = false := by
  have first : ∃ parts ks, members.kinds = stringKind parts :: ks := by
    cases members <;> exact ⟨_, _, rfl⟩
  obtain ⟨parts, ks, hk⟩ := first
  rw [hk] at h
  obtain ⟨peek, after, rfl, hpeek, -⟩ := map_eq_cons_iff.mp h
  have htype : peek.type = .terminal .string := congrArg Prod.fst hpeek
  exact ⟨peek, after, rfl, tokenIsOperator_of_ne (by simp [htype]) rbrace⟩

/-- The tokens of a member: the key, the colon, those of the value and what follows. -/
theorem member_tokens {ks tail : List Kind}
    (h : ts.map Token.kind = stringKind parts :: operatorKind colon :: (ks ++ tail)) :
    ∃ k c us rest, ts = k :: c :: (us ++ rest) ∧ k.kind = stringKind parts ∧
      c.kind = operatorKind colon ∧ us.map Token.kind = ks ∧ rest.map Token.kind = tail := by
  obtain ⟨k, ts, rfl, hk, h⟩ := map_eq_cons_iff.mp h
  obtain ⟨c, ts, rfl, hc, h⟩ := map_eq_cons_iff.mp h
  obtain ⟨us, rest, rfl, hus, hrest⟩ := map_eq_append_iff.mp h
  exact ⟨k, c, us, rest, rfl, hk, hc, hus, hrest⟩

variable {dict dict' : List (Bytes × QObject D)}

theorem gives_object (h : ∀ fuel, 5 * us.length ≤ fuel → ∀ rest st,
      parseObject lib (fuel + 1) (t :: us ++ rest) st = .ok (some v, rest, st)) :
    Gives (parseValue lib) (t :: us) v := by
  intro fuel hf rest st
  obtain ⟨fuel, rfl⟩ := Nat.exists_eq_add_of_le' (show 2 ≤ fuel by simp at hf; omega)
  rw [parseValue, h fuel (by simp at hf; omega)]
  rfl

/-- A pair from its key, its colon and its value. -/
theorem Gives.pair {k : Token} (hk : k.kind = stringKind parts) (hc : c.kind = operatorKind colon)
    (h : StrWellFormed parts) {key : Bytes} (hkey : strValue parts = some key)
    (hv : Gives (parseValue lib) us v) :
    Gives (parsePair lib · dict) (k :: c :: us) (qdictPutObj dict key v) := by
  intro fuel hf rest st
  simp only [length_cons] at hf
  obtain ⟨fuel, rfl⟩ := Nat.exists_eq_add_of_le' (show 1 ≤ fuel by omega)
  have string := @gives_string D lib _ _ hk h _ hkey fuel (by simp; omega) (c :: us ++ rest) st
  have value := hv fuel (by omega) rest st
  have whole : cString key = key := cString_of_notMem (strValue_zero_notMem h hkey)
  rw [singleton_append, cons_append] at string
  simp [parsePair, string, ok_bind, tokenIsOperator_of_kind hc, value, whole]

theorem Gives.lastPair (h : Gives (parsePair lib · dict) us dict')
    (hc : c.kind = operatorKind rbrace) : Gives (parsePairs lib · dict) (us ++ [c]) dict' := by
  intro fuel hf rest st
  obtain ⟨fuel, rfl⟩ := Nat.exists_eq_add_of_le' (show 1 ≤ fuel by simp at hf; omega)
  have first := h fuel (by simp at hf; omega) (c :: rest) st
  simp [parsePairs, first, ok_bind, tokenIsOperator_of_kind hc]

theorem Gives.morePairs {all : List (Bytes × QObject D)} (h : Gives (parsePair lib · dict) us dict')
    (hc : c.kind = operatorKind comma) (others : Gives (parsePairs lib · dict') ts all) :
    Gives (parsePairs lib · dict) (us ++ c :: ts) all := by
  intro fuel hf rest st
  obtain ⟨fuel, rfl⟩ := Nat.exists_eq_add_of_le' (show 1 ≤ fuel by simp at hf; omega)
  have first := h fuel (by simp at hf; omega) (c :: ts ++ rest) st
  have tail := others fuel (by simp at hf; omega) rest st
  have no : tokenIsOperator c rbrace = false := by rw [tokenIsOperator_of_kind hc]; decide
  rw [cons_append] at first
  simp [parsePairs, first, ok_bind, no, tokenIsOperator_of_kind hc, tail]

end

/-! ## Whole trees -/

section
variable {D : Type} {lib : FloatLib D}

mutual

/-- The parser gives the tokens of a tree the value of the tree. -/
theorem parseValue_doc : ∀ {d : Doc}, d.WellFormed → d.NoZeroExponent →
    ∀ {v : QObject D}, d.value lib = some v → ∀ {ts : List Token}, ts.map Token.kind = d.kinds →
    Gives (parseValue lib) ts v
  | .str parts, h, _, v, hv, ts, hts => by
    obtain ⟨t, rfl, ht⟩ := map_eq_singleton_iff.mp hts
    obtain ⟨bytes, hb, rfl⟩ := Option.map_eq_some_iff.mp hv
    exact gives_string ht h hb
  | .num n, h, hz, v, hv, ts, hts => by
    obtain ⟨t, rfl, ht⟩ := map_eq_singleton_iff.mp hts
    exact gives_number ht h hz hv
  | .bool b, _, _, v, hv, ts, hts => by
    obtain ⟨t, rfl, ht⟩ := map_eq_singleton_iff.mp hts
    cases hv
    exact gives_bool ht
  | .null, _, _, v, hv, _, _ => by cases hv
  | .emptyArr pad, _, _, v, hv, ts, hts => by
    obtain ⟨o, us, rfl, ho, hus⟩ := map_eq_cons_iff.mp hts
    obtain ⟨c, rfl, hc⟩ := map_eq_singleton_iff.mp hus
    cases hv
    refine gives_array ho fun fuel _ rest st => ?_
    simp [parseArray, tokenIsOperator_of_kind ho, tokenIsOperator_of_kind hc]
  | .arr items, h, hz, v, hv, ts, hts => by
    obtain ⟨o, us, rfl, ho, hus⟩ := map_eq_cons_iff.mp hts
    obtain ⟨vs, hvs, rfl⟩ := Option.map_eq_some_iff.mp hv
    obtain ⟨peek, after, rfl, noClose⟩ := first_item items hus
    refine gives_array ho fun fuel hf rest st => ?_
    have inside := parseItems_items h hz hvs hus [] fuel hf rest st
    rw [cons_append] at inside
    simp [parseArray, tokenIsOperator_of_kind ho, noClose, inside, ok_bind]
  | .emptyObj pad, _, _, v, hv, ts, hts => by
    obtain ⟨o, us, rfl, ho, hus⟩ := map_eq_cons_iff.mp hts
    obtain ⟨c, rfl, hc⟩ := map_eq_singleton_iff.mp hus
    cases hv
    refine gives_object fun fuel _ rest st => ?_
    simp [parseObject, tokenIsOperator_of_kind ho, tokenIsOperator_of_kind hc]
  | .obj members, h, hz, v, hv, ts, hts => by
    obtain ⟨o, us, rfl, ho, hus⟩ := map_eq_cons_iff.mp hts
    obtain ⟨dict, hdict, rfl⟩ := Option.map_eq_some_iff.mp hv
    obtain ⟨peek, after, rfl, noClose⟩ := first_member members hus
    refine gives_object fun fuel hf rest st => ?_
    have inside := parsePairs_members h hz hdict hus fuel hf rest st
    rw [cons_append] at inside
    simp [parseObject, tokenIsOperator_of_kind ho, noClose, inside, ok_bind]

theorem parseItems_items : ∀ {items : Items}, items.WellFormed → items.NoZeroExponent →
    ∀ {vs : List (QObject D)}, items.values lib = some vs →
    ∀ {ts : List Token}, ts.map Token.kind = items.kinds → ∀ list : List (QObject D),
    Gives (parseItems lib · list) ts (list ++ vs)
  | .last before d after, h, hz, vs, hvs, ts, hts, list => by
    obtain ⟨us, tail, rfl, hus, htail⟩ := map_eq_append_iff.mp hts
    obtain ⟨c, rfl, hc⟩ := map_eq_singleton_iff.mp htail
    obtain ⟨v, hv, rfl⟩ := Option.map_eq_some_iff.mp hvs
    exact (parseValue_doc h.2.1 hz hv hus).lastItem hc
  | .more before d after others, h, hz, vs, hvs, ts, hts, list => by
    obtain ⟨us, tail, rfl, hus, htail⟩ := map_eq_append_iff.mp hts
    obtain ⟨c, ws, rfl, hc, hws⟩ := map_eq_cons_iff.mp htail
    simp only [Items.values] at hvs
    split at hvs
    · next v vs hv hvs' =>
      cases hvs
      have tail := parseItems_items h.2.2.2 hz.2 hvs' hws (list ++ [v])
      rw [append_assoc, singleton_append] at tail
      exact (parseValue_doc h.2.1 hz.1 hv hus).moreItems hc tail
    · cases hvs

theorem parsePairs_members : ∀ {members : Members}, members.WellFormed → members.NoZeroExponent →
    ∀ {dict dict' : List (Bytes × QObject D)}, members.entries lib dict = some dict' →
    ∀ {ts : List Token}, ts.map Token.kind = members.kinds →
    Gives (parsePairs lib · dict) ts dict'
  | .last key d after, h, hz, dict, dict', hd, ts, hts => by
    obtain ⟨k, c, us, tail, rfl, hk, hc, hus, htail⟩ := member_tokens hts
    obtain ⟨close, rfl, hclose⟩ := map_eq_singleton_iff.mp htail
    simp only [Members.entries] at hd
    split at hd
    · next name v hname hv =>
      cases hd
      exact (Gives.pair hk hc h.1.parts hname (parseValue_doc h.2.1 hz hv hus)).lastPair hclose
    · cases hd
  | .more key d after others, h, hz, dict, dict', hd, ts, hts => by
    obtain ⟨k, c, us, tail, rfl, hk, hc, hus, htail⟩ := member_tokens hts
    obtain ⟨sep, ws, rfl, hsep, hws⟩ := map_eq_cons_iff.mp htail
    simp only [Members.entries] at hd
    split at hd
    · next name v hname hv =>
      have value := parseValue_doc h.2.1 hz.1 hv hus
      exact (Gives.pair hk hc h.1.parts hname value).morePairs hsep
        (parsePairs_members h.2.2.2 hz.2 hd hws)
    · cases hd

end

/-- The parser on the tokens of a tree as a message of their own. -/
theorem jsonParserParseErr_doc {d : Doc} (h : d.WellFormed) (hz : d.NoZeroExponent) {v : QObject D}
    (hv : d.value lib = some v) {ts : List Token} (hts : ts.map Token.kind = d.kinds)
    (ap : Option (List (VaArg D))) :
    jsonParserParseErr lib (some ts) ap = .ok (some v, [], ⟨none, ap⟩) := by
  have enough : 5 * ts.length ≤ parseFuel ts := by unfold parseFuel; omega
  have parsed := parseValue_doc h hz hv hts _ enough [] ⟨none, ap⟩
  rwa [append_nil] at parsed

end

end QemuStm32.Json
