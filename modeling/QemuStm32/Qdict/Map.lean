import QemuStm32.Lib.Runs
import QemuStm32.Qdict.Table

/-!
# A QDict is a finite map

What a QDict is for: a finite map from strings to objects, with the calls of
`qdict.c` on it (`mapCall`). The hash table refines it (`Refines`): the entries
in use are those of the bucket lists, each in the bucket of its key. Whatever the
calls, the replies are those of the map, and both ways to iterate see its entries
(`qdict_behaves_as_map`). The list that stands for a QDict in the model of the parser
is the one that `qdict_iter` walks (`puts_listed`).
-/

namespace QemuStm32.Qdict

open Doubly SlotLists Json Runs Function List

section
variable {V : Type}

abbrev Map (V : Type) := Finmap fun _ : Bytes => V

def mapCall (m : Map V) : Call V → Map V × Reply V
  | .putObj key value => (m.insert key value, .done)
  | .del key => (m.erase key, .done)
  | .get key => (m, .object (m.lookup key))
  | .haskey key => (m, .present (m.lookup key).isSome)

def mapCallAll : Map V → List (Call V) → Map V × List (Reply V)
  | m, [] => (m, [])
  | m, c :: calls =>
    let (m, reply) := mapCall m c
    let (m, replies) := mapCallAll m calls
    (m, reply :: replies)

structure Refines (d : QDict V) (chain : Nat → List Nat) (m : Map V) : Prop where
  holds : d.links.Holds chain
  home : ∀ b, ∀ p ∈ chain b, ∃ e, d.entries p = some e ∧ bucketOf e.1 = b
  listed : ∀ p e, d.entries p = some e → p ∈ chain (bucketOf e.1)
  given : ∀ p e, d.entries p = some e → p < d.allocated
  unique : ∀ p q e f, d.entries p = some e → d.entries q = some f → e.1 = f.1 → p = q
  lookup : ∀ key v, m.lookup key = some v ↔ ∃ p, d.entries p = some (key, v)
  size : d.size = m.keys.card

variable {d : QDict V} {chain : Nat → List Nat} {m : Map V}

theorem bucketOf_lt (key : Bytes) : bucketOf key < bucketMax := by
  unfold bucketOf bucket
  rw [UInt32.toNat_mod]
  exact Nat.mod_lt _ (by decide)

theorem new_refines : Refines (qdictNew : QDict V) (fun _ => []) ∅ where
  holds := ⟨fun _ => rfl, fun _ => trivial, fun _ => nodup_nil, fun _ _ _ => nofun⟩
  home := fun _ _ => nofun
  listed := fun _ _ => nofun
  given := fun _ _ => nofun
  unique := fun _ _ _ _ => nofun
  lookup := by
    intro key v
    exact ⟨nofun, fun stored => nomatch stored⟩
  size := rfl

variable {p n : Nat} {slot : Slot Nat Nat} {l r : List Nat} {key : Bytes} {v : V} {σ : Type}

theorem deref_some {e : Bytes × V} (h : d.entries p = some e) : deref d p = .ok e := by
  unfold deref
  rw [h]

/-- The elements of a bucket were given out, and are different. -/
theorem Refines.length_le (h : Refines d chain m) (l : List Nat) (nodup : l.Nodup)
    (used : ∀ p ∈ l, ∃ e, d.entries p = some e) : l.length ≤ d.allocated := by
  have sub : l ⊆ range d.allocated := by
    intro p mem
    obtain ⟨e, here⟩ := used p mem
    exact mem_range.mpr (h.given p e here)
  simpa using (nodup.subperm sub).length_le

/-! ## Searching a bucket -/

theorem findFrom_eq (key : Bytes) (hangs : d.links.pointers.Hangs slot l)
    (used : ∀ p ∈ l, ∃ e, d.entries p = some e) (enough : l.length < n) :
    findFrom d key n (d.links.pointers.read slot) =
      .ok (l.find? fun p => decide ((d.entries p).map Prod.fst = some key)) := by
  induction l generalizing slot n with
  | nil =>
    cases n with
    | zero => cases enough
    | succ n =>
      rw [show d.links.pointers.read slot = none from hangs]
      rfl
  | cons p l ih =>
    cases n with
    | zero => cases enough
    | succ n =>
      obtain ⟨e, here⟩ := used p mem_cons_self
      rw [hangs.1, findFrom, deref_some here, ok_bind]
      by_cases same : e.1 = key
      · rw [if_pos same, find?_cons_of_pos (by simp [here, same])]
      · rw [if_neg same, find?_cons_of_neg (by simp [here, same])]
        exact ih hangs.2 (fun q mem => used q (.tail _ mem)) (by simpa using enough)

/-- The search of a key in its bucket finds the entry of the key, if there is one. -/
theorem qdictFind_spec (h : Refines d chain m) (key : Bytes) :
    (∃ p v, qdictFind d key (bucketOf key) = .ok (some p) ∧ d.entries p = some (key, v) ∧
      m.lookup key = some v) ∨
    (qdictFind d key (bucketOf key) = .ok none ∧ m.lookup key = none) := by
  have used : ∀ p ∈ chain (bucketOf key), ∃ e, d.entries p = some e := fun p mem =>
    (h.home _ p mem).imp fun _ here => here.1
  have short := h.length_le _ (h.holds.nodup (bucketOf key)) used
  have search := findFrom_eq key (h.holds.hangs (bucketOf key)) used (Nat.lt_succ_of_le short)
  have start : qdictFind d key (bucketOf key) = findFrom d key (d.allocated + 1)
    (d.links.pointers.read (.head (bucketOf key))) := rfl
  rw [start, search]
  cases found : (chain (bucketOf key)).find? fun p =>
      decide ((d.entries p).map Prod.fst = some key) with
  | some p =>
    have hit := find?_some found
    rw [decide_eq_true_eq, Option.map_eq_some_iff] at hit
    obtain ⟨⟨_, v⟩, here, rfl⟩ := hit
    exact .inl ⟨p, v, rfl, here, (h.lookup _ v).mpr ⟨p, here⟩⟩
  | none =>
    refine .inr ⟨rfl, ?_⟩
    rw [find?_eq_none] at found
    cases stored : m.lookup key with
    | none => rfl
    | some v =>
      obtain ⟨p, here⟩ := (h.lookup key v).mp stored
      have mem : p ∈ chain (bucketOf key) := h.listed p (key, v) here
      have miss := found p mem
      rw [decide_eq_true_eq, here] at miss
      exact absurd rfl miss

/-! ## The list that `qdict_iter` walks -/

/-- The addresses of the entries, bucket by bucket. -/
def inOrder (chain : Nat → List Nat) : List Nat := (List.range bucketMax).flatMap chain

theorem Refines.mem_inOrder (h : Refines d chain m) :
    p ∈ inOrder chain ↔ ∃ e, d.entries p = some e := by
  unfold inOrder
  rw [mem_flatMap]
  constructor
  · rintro ⟨b, _, mem⟩
    obtain ⟨e, here, -⟩ := h.home b p mem
    exact ⟨e, here⟩
  · rintro ⟨e, here⟩
    exact ⟨bucketOf e.1, mem_range.mpr (bucketOf_lt e.1), h.listed p e here⟩

/-- The buckets before, at and behind a bucket. -/
theorem inOrder_split (chain : Nat → List Nat) {b : Nat} (small : b < bucketMax) :
    inOrder chain = (List.range b).flatMap chain ++ chain b ++
      (List.range' (b + 1) (bucketMax - (b + 1))).flatMap chain := by
  have range : range bucketMax =
      range b ++ b :: range' (b + 1) (bucketMax - (b + 1)) := by
    have joined : range' 0 b ++ range' (0 + b) (bucketMax - b) =
        range' 0 (b + (bucketMax - b)) := range'_append_1
    rw [Nat.zero_add, Nat.add_sub_cancel' small.le] at joined
    rw [← range'_succ, show bucketMax - (b + 1) + 1 = bucketMax - b by omega,
      range_eq_range', range_eq_range', joined]
  unfold inOrder
  rw [range, flatMap_append, flatMap_cons, append_assoc]

/-- The entries as the parser's model of a QDict has them. -/
def listing (d : QDict V) (chain : Nat → List Nat) : List (Bytes × V) :=
  (inOrder chain).filterMap d.entries

theorem Refines.mem_listing (h : Refines d chain m) {e : Bytes × V} :
    e ∈ listing d chain ↔ ∃ p, d.entries p = some e := by
  rw [listing, mem_filterMap]
  constructor
  · rintro ⟨p, -, here⟩
    exact ⟨p, here⟩
  · rintro ⟨p, here⟩
    exact ⟨p, h.mem_inOrder.mpr ⟨e, here⟩, here⟩

theorem Refines.listing_get (h : Refines d chain m) (key : Bytes) :
    Json.qdictGet (listing d chain) key = m.lookup key := by
  have listed : ∀ e, e ∈ listing d chain ↔ m.lookup e.1 = some e.2 :=
    fun e => h.mem_listing.trans (h.lookup e.1 e.2).symm
  generalize listing d chain = es at listed
  cases stored : m.lookup key with
  | none =>
    rw [qdictGet_eq_none, mem_map]
    rintro ⟨e, mem, rfl⟩
    cases stored.symm.trans ((listed e).mp mem)
  | some v =>
    unfold Json.qdictGet
    cases found : es.find? fun e => e.1 = key with
    | none => exact absurd (find?_eq_none.mp found (key, v) ((listed _).mpr stored)) (by simp)
    | some e =>
      have hit := find?_some found
      obtain rfl : e.1 = key := of_decide_eq_true hit
      exact ((listed e).mp (mem_of_find?_eq_some found)).symm.trans stored

/-- The entry of a key is the only one. -/
theorem Refines.own (h : Refines d chain m) (here : d.entries p = some (key, v)) :
    ∀ q e, d.entries q = some e → (e.1 = key ↔ q = p) := by
  intro q e there
  refine ⟨h.unique q p e _ there here, ?_⟩
  rintro rfl
  cases here.symm.trans there
  rfl

theorem Refines.listing_replace (h : Refines d chain m) (here : d.entries p = some (key, v))
    (value : V) :
    (inOrder chain).filterMap (update d.entries p (some (key, value))) =
      Json.qdictPutObj (listing d chain) key value := by
  have present : (listing d chain).any (fun e => e.1 = key) = true :=
    any_eq_true.mpr ⟨(key, v), h.mem_listing.mpr ⟨p, here⟩, by simp⟩
  rw [Json.qdictPutObj, if_pos present, replaceEntry, listing, map_filterMap]
  refine filterMap_congr fun q _ => ?_
  by_cases same : q = p
  · rw [same, update_self, here, Option.map_some, if_pos rfl]
  · rw [update_of_ne same]
    cases there : d.entries q with
    | none => rfl
    | some e => rw [Option.map_some, if_neg fun e' => same ((h.own here q e there).mp e')]

theorem insertEntry_append {before behind : List (Bytes × V)} (value : V)
    (lower : ∀ e ∈ before, bucketOf e.1 < bucketOf key)
    (higher : ∀ e ∈ behind, bucketOf key ≤ bucketOf e.1) :
    Json.insertEntry key value (before ++ behind) = before ++ (key, value) :: behind := by
  have order (e : Bytes × V) : bucket e.1 < bucket key ↔ bucketOf e.1 < bucketOf key := by
    rw [UInt32.lt_iff_toNat_lt]
    unfold bucketOf
    rfl
  have first : ∀ e ∈ before, decide (bucket e.1 < bucket key) = true :=
    fun e mem => decide_eq_true ((order e).mpr (lower e mem))
  rw [Json.insertEntry, takeWhile_append_of_pos first, dropWhile_append_of_pos first]
  cases behind with
  | nil => simp
  | cons e behind =>
    have stop : ¬ bucket e.1 < bucket key := by
      rw [order]
      exact Nat.not_lt.mpr (higher e mem_cons_self)
    simp [stop]

theorem Refines.bucketOf_mem (h : Refines d chain m) {bs : List Nat} {e : Bytes × V}
    (mem : e ∈ (bs.flatMap chain).filterMap d.entries) : bucketOf e.1 ∈ bs := by
  obtain ⟨q, mem, here⟩ := mem_filterMap.mp mem
  obtain ⟨b, mem, inside⟩ := mem_flatMap.mp mem
  obtain ⟨f, there, home⟩ := h.home b q inside
  cases here.symm.trans there
  rwa [home]

/-- The other buckets do not see a new entry. -/
theorem filterMap_apart (unlisted : ∀ b, p ∉ chain b) (value : V) {bs : List Nat}
    (apart : bucketOf key ∉ bs) :
    (bs.flatMap (update chain (bucketOf key) (p :: chain (bucketOf key)))).filterMap
      (update d.entries p (some (key, value))) = (bs.flatMap chain).filterMap d.entries := by
  have same : ∀ b ∈ bs, update chain (bucketOf key) (p :: chain (bucketOf key)) b = chain b :=
    fun b mem => update_of_ne (fun e : b = bucketOf key => apart (e ▸ mem)) ..
  rw [flatMap_congr same]
  refine filterMap_congr fun q mem => update_of_ne ?_ ..
  rintro rfl
  obtain ⟨b, -, mem⟩ := mem_flatMap.mp mem
  exact unlisted b mem

theorem Refines.listing_insert (h : Refines d chain m) (absent : m.lookup key = none)
    (unlisted : ∀ b, p ∉ chain b) (value : V) :
    (inOrder (update chain (bucketOf key) (p :: chain (bucketOf key)))).filterMap
        (update d.entries p (some (key, value))) =
      Json.qdictPutObj (listing d chain) key value := by
  have missing : ¬ (listing d chain).any (fun e => e.1 = key) = true := by
    rw [any_eq_true]
    rintro ⟨e, mem, same⟩
    rw [← of_decide_eq_true same] at absent
    cases absent.symm.trans ((h.lookup e.1 e.2).mpr (h.mem_listing.mp mem))
  have own : (chain (bucketOf key)).filterMap (update d.entries p (some (key, value))) =
      (chain (bucketOf key)).filterMap d.entries :=
    filterMap_congr fun q mem => update_of_ne (fun e => unlisted _ (e ▸ mem)) ..
  have small := bucketOf_lt key
  rw [Json.qdictPutObj, if_neg missing, listing, inOrder_split _ small, inOrder_split chain small,
    update_self]
  simp only [filterMap_append]
  rw [filterMap_apart unlisted value (by simp), filterMap_apart unlisted value (by simp),
    filterMap_cons_some (update_self ..), own, append_assoc, append_assoc, insertEntry_append]
  · rfl
  · exact fun e mem => mem_range.mp (h.bucketOf_mem mem)
  · intro e mem
    obtain mem | mem := mem_append.mp mem
    · have inside : _ ∈ [bucketOf key] := h.bucketOf_mem (by simpa using mem)
      exact (mem_singleton.mp inside).ge
    · have := (mem_range'_1.mp (h.bucketOf_mem mem)).1
      omega

/-! ## The calls -/

theorem card_keys_insert_of_mem (stored : m.lookup key = some v) (value : V) :
    (m.insert key value).keys.card = m.keys.card := by
  have same : (m.insert key value).keys = m.keys := by
    ext k
    rw [Finmap.mem_keys, Finmap.mem_keys, Finmap.mem_insert, or_iff_right_iff_imp]
    rintro rfl
    exact Finmap.mem_of_lookup_eq_some stored
  rw [same]

theorem card_keys_insert_of_notMem (absent : m.lookup key = none) (value : V) :
    (m.insert key value).keys.card = m.keys.card + 1 := by
  have more : (m.insert key value).keys = Insert.insert key m.keys := by
    ext k
    rw [Finmap.mem_keys, Finset.mem_insert, Finmap.mem_keys, Finmap.mem_insert]
  rw [more, Finset.card_insert_of_notMem]
  exact Finmap.lookup_eq_none.mp absent

/-- A call changes what one address has, and it is the address of one key. -/
theorem Refines.change (h : Refines d chain m) {d' : QDict V} {chain' : Nat → List Nat}
    {m' : Map V} (now : Option V) (holds : d'.links.Holds chain')
    (own : ∀ q e, d.entries q = some e → (e.1 = key ↔ q = p))
    (entries : d'.entries = Function.update d.entries p (now.map (key, ·)))
    (chains : ∀ q b, q ∈ chain' b ↔
      if q = p then now.isSome ∧ b = bucketOf key else q ∈ chain b)
    (given : d.allocated ≤ d'.allocated ∧ (now.isSome → p < d'.allocated))
    (lookup : ∀ k, m'.lookup k = if k = key then now else m.lookup k)
    (size : d'.size = m'.keys.card) : Refines d' chain' m' := by
  have entry : ∀ q e, d'.entries q = some e ↔
      if q = p then e.1 = key ∧ now = some e.2 else d.entries q = some e := by
    rintro q ⟨k, w⟩
    rw [entries]
    split
    · next same =>
      rw [same]
      cases now with
      | none => simp
      | some v => simp [eq_comm]
    · next other => rw [update_of_ne other]
  refine ⟨holds, fun b q mem => ?_, fun q e here => ?_, fun q e here => ?_,
    fun q r e f atQ atR same => ?_, fun k v => ?_, size⟩
  · rw [chains] at mem
    split at mem
    · next same =>
      obtain ⟨v, stored⟩ := Option.isSome_iff_exists.mp mem.1
      exact ⟨(key, v), (entry q _).mpr (by simp [same, stored]), mem.2.symm⟩
    · next other =>
      obtain ⟨e, here, bucket⟩ := h.home b q mem
      exact ⟨e, (entry q e).mpr (by rwa [if_neg other]), bucket⟩
  · rw [chains]
    rw [entry] at here
    split at here
    · next same => simp [same, here]
    · next other => simpa [other] using h.listed q e here
  · rw [entry] at here
    split at here
    · next same => exact same ▸ given.2 (by simp [here])
    · exact Nat.lt_of_lt_of_le (h.given q e here) given.1
  · grind [h.unique q r e f]
  · simp only [lookup, entry]
    split
    · next same => exact ⟨fun stored => ⟨p, by simp [same, stored]⟩, by grind⟩
    · rw [h.lookup]
      exact exists_congr fun q => by grind

theorem lookup_insert (value : V) (k : Bytes) :
    (m.insert key value).lookup k = if k = key then some value else m.lookup k := by
  split
  · next same => rw [same, Finmap.lookup_insert]
  · next other => rw [Finmap.lookup_insert_of_ne m other]

section
variable (h : Refines d chain m)
include h

theorem replaceValue_refines {old : V} (value : V) (here : d.entries p = some (key, old)) :
    ∃ t, replaceValue d p value = .ok t ∧ Refines t chain (m.insert key value) ∧
      listing t chain = Json.qdictPutObj (listing d chain) key value := by
  unfold replaceValue
  rw [deref_some here]
  have stored := (h.lookup key old).mpr ⟨p, here⟩
  refine ⟨_, rfl, h.change (some value) h.holds (h.own here) rfl (fun q b => ?_)
    ⟨le_rfl, fun _ => h.given p _ here⟩ (lookup_insert value)
    (h.size.trans (card_keys_insert_of_mem stored value).symm), h.listing_replace here value⟩
  split
  · next same =>
    rw [same]
    refine ⟨fun mem => ⟨rfl, h.holds.apart _ _ _ mem (h.listed p _ here)⟩, ?_⟩
    rintro ⟨-, rfl⟩
    exact h.listed p _ here
  · exact Iff.rfl

theorem insertEntry_refines (value : V) (absent : m.lookup key = none) :
    Refines (insertEntry d key value (bucketOf key))
        (Function.update chain (bucketOf key) (d.allocated :: chain (bucketOf key)))
        (m.insert key value) ∧
      listing (insertEntry d key value (bucketOf key))
          (Function.update chain (bucketOf key) (d.allocated :: chain (bucketOf key))) =
        Json.qdictPutObj (listing d chain) key value := by
  have fresh : ∀ e, d.entries d.allocated ≠ some e := fun e here =>
    Nat.lt_irrefl _ (h.given _ e here)
  have unlisted : ∀ b, d.allocated ∉ chain b := by
    intro b mem
    obtain ⟨e, here, -⟩ := h.home b _ mem
    exact fresh e here
  refine ⟨h.change (some value) (Links.insertHead_holds h.holds _ unlisted)
    (fun q e here => ?_) rfl (fun q b => ?_) ⟨Nat.le_succ _, fun _ => Nat.lt_succ_self _⟩
    (lookup_insert value) (by rw [card_keys_insert_of_notMem absent, ← h.size]; rfl),
    h.listing_insert absent unlisted value⟩
  · refine iff_of_false ?_ ?_
    · rintro rfl
      cases absent.symm.trans ((h.lookup e.1 e.2).mpr ⟨q, here⟩)
    · rintro rfl
      exact fresh e here
  · by_cases there : b = bucketOf key
    · grind
    · rw [update_of_ne there]
      grind

/-- A put does to the table what it does to the map and to the list. -/
theorem qdictPutObj_refines (key : Bytes) (value : V) :
    ∃ t chain', qdictPutObj d key value = .ok t ∧ Refines t chain' (m.insert key value) ∧
      listing t chain' = Json.qdictPutObj (listing d chain) key value := by
  unfold qdictPutObj
  obtain ⟨p, v, found, here, -⟩ | ⟨found, absent⟩ := qdictFind_spec h key
  · obtain ⟨t, replaced, refines⟩ := replaceValue_refines h value here
    refine ⟨t, chain, ?_, refines⟩
    rw [found]
    exact replaced
  · refine ⟨_, _, ?_, insertEntry_refines h value absent⟩
    rw [found, ok_bind]

theorem dropEntry_refines (here : d.entries p = some (key, v)) :
    ∃ t chain', dropEntry d p = .ok t ∧ Refines t chain' (m.erase key) := by
  unfold dropEntry
  rw [deref_some here]
  have listed : p ∈ chain (bucketOf key) := h.listed p (key, v) here
  have stored := (h.lookup key v).mpr ⟨p, here⟩
  refine ⟨_, _, rfl, h.change none (Links.remove_holds h.holds listed) (h.own here) rfl
    (fun q b => ?_) ⟨le_rfl, nofun⟩ (fun k => ?_) ?_⟩
  · by_cases at_b : b = bucketOf key
    · subst at_b
      rw [update_self, (h.holds.nodup _).mem_erase_iff]
      grind
    · have elsewhere : p ∉ chain b := fun mem => at_b (h.holds.apart _ _ _ mem listed)
      rw [update_of_ne at_b]
      grind
  · split
    · next gone => rw [gone, Finmap.lookup_erase]
    · next other => rw [Finmap.lookup_erase_ne other]
  · rw [Finmap.keys_erase, Finset.card_erase_of_mem, h.size]
    exact Finmap.mem_of_lookup_eq_some stored

theorem qdictDel_refines (key : Bytes) :
    ∃ t chain', qdictDel d key = .ok t ∧ Refines t chain' (m.erase key) := by
  unfold qdictDel
  obtain ⟨p, v, found, here, -⟩ | ⟨found, absent⟩ := qdictFind_spec h key
  · obtain ⟨t, chain', dropped, refines⟩ := dropEntry_refines h here
    refine ⟨t, chain', ?_, refines⟩
    rw [found]
    exact dropped
  · refine ⟨d, chain, ?_, ?_⟩
    · rw [found, ok_bind]
    have same : m.erase key = m := by
      refine Finmap.ext_lookup fun k => ?_
      by_cases gone : k = key
      · rw [gone, Finmap.lookup_erase, absent]
      · rw [Finmap.lookup_erase_ne gone]
    rw [same]
    exact h

theorem qdictGet_eq (key : Bytes) : qdictGet d key = .ok (m.lookup key) := by
  unfold qdictGet
  obtain ⟨p, v, found, here, stored⟩ | ⟨found, absent⟩ := qdictFind_spec h key
  · rw [found, ok_bind, stored]
    dsimp only
    rw [deref_some here, ok_bind]
  · rw [found, ok_bind, absent]

theorem qdictHaskey_eq (key : Bytes) : qdictHaskey d key = .ok (m.lookup key).isSome := by
  unfold qdictHaskey
  obtain ⟨p, v, found, here, stored⟩ | ⟨found, absent⟩ := qdictFind_spec h key
  · rw [found, stored]
    rfl
  · rw [found, absent]
    rfl

theorem call_refines (c : Call V) :
    ∃ t chain', call d c = .ok (t, (mapCall m c).2) ∧ Refines t chain' (mapCall m c).1 := by
  cases c with
  | putObj key value =>
    obtain ⟨t, chain', put, refines, -⟩ := qdictPutObj_refines h key value
    exact ⟨t, chain', bind_ok_iff.mpr ⟨t, put, rfl⟩, refines⟩
  | del key =>
    obtain ⟨t, chain', deleted, refines⟩ := qdictDel_refines h key
    exact ⟨t, chain', bind_ok_iff.mpr ⟨t, deleted, rfl⟩, refines⟩
  | get key => exact ⟨d, chain, bind_ok_iff.mpr ⟨_, qdictGet_eq h key, rfl⟩, h⟩
  | haskey key => exact ⟨d, chain, bind_ok_iff.mpr ⟨_, qdictHaskey_eq h key, rfl⟩, h⟩

theorem callAll_refines (calls : List (Call V)) :
    ∃ t chain', callAll d calls = .ok (t, (mapCallAll m calls).2) ∧
      Refines t chain' (mapCallAll m calls).1 := by
  induction calls generalizing d chain m with
  | nil => exact ⟨d, chain, rfl, h⟩
  | cons c calls ih =>
    obtain ⟨u, chain₁, first, refines⟩ := call_refines h c
    obtain ⟨t, chain₂, rest, refines⟩ := ih refines
    refine ⟨t, chain₂, ?_, refines⟩
    rw [callAll, first, ok_bind]
    dsimp only
    rw [rest]
    rfl

end

/-! ## Iteration -/

theorem Refines.inOrder_nodup (h : Refines d chain m) : (inOrder chain).Nodup := by
  unfold inOrder
  rw [nodup_flatMap]
  refine ⟨fun b _ => h.holds.nodup b, List.Pairwise.imp ?_ nodup_range⟩
  intro b b' other p atB atB'
  exact other (h.holds.apart b b' p atB atB')

theorem iterFrom_eq (iter : σ → Bytes → V → σ) (hangs : d.links.pointers.Hangs slot l)
    (used : ∀ p ∈ l, ∃ e, d.entries p = some e) (enough : l.length < n) (kept : σ) :
    iterFrom d iter n (d.links.pointers.read slot) kept =
      .ok ((l.filterMap d.entries).foldl (fun kept e => iter kept e.1 e.2) kept) := by
  induction l generalizing slot n kept with
  | nil =>
    cases n with
    | zero => cases enough
    | succ n =>
      rw [show d.links.pointers.read slot = none from hangs]
      rfl
  | cons p l ih =>
    cases n with
    | zero => cases enough
    | succ n =>
      obtain ⟨e, here⟩ := used p mem_cons_self
      rw [hangs.1, iterFrom, deref_some here, filterMap_cons_some here]
      exact ih hangs.2 (fun q mem => used q (.tail _ mem)) (by simpa using enough) _

theorem qdictIter_eq (h : Refines d chain m) (iter : σ → Bytes → V → σ) (kept : σ) :
    qdictIter d iter kept =
      .ok ((listing d chain).foldl (fun kept e => iter kept e.1 e.2) kept) := by
  have used : ∀ b, ∀ p ∈ chain b, ∃ e, d.entries p = some e := fun b p mem =>
    (h.home b p mem).imp fun _ here => here.1
  unfold qdictIter listing inOrder
  rw [foldlM_eq_ok]
  · rw [filterMap_flatMap, foldl_flatMap]
  · intro kept b _
    have short := h.length_le _ (h.holds.nodup b) (used b)
    exact iterFrom_eq iter (h.holds.hangs b) (used b) (Nat.lt_succ_of_le short) kept

theorem Refines.puts (h : Refines d chain m) (puts : List (Bytes × V)) :
    ∃ t chain' m', puts.foldlM (fun d e => qdictPutObj d e.1 e.2) d = .ok t ∧
      Refines t chain' m' ∧ listing t chain' =
        puts.foldl (fun es e => Json.qdictPutObj es e.1 e.2) (listing d chain) := by
  induction puts generalizing d chain m with
  | nil => exact ⟨d, chain, m, rfl, h, foldl_nil.symm⟩
  | cons e puts ih =>
    obtain ⟨u, chain₁, put, refines, first⟩ := qdictPutObj_refines h e.1 e.2
    obtain ⟨t, chain', m', rest, refines, listed⟩ := ih refines
    refine ⟨t, chain', m', ?_, refines, ?_⟩
    · rw [foldlM_cons, put, ok_bind, rest]
    · rw [listed, first, foldl_cons]

/-- The table after some puts is the list of the parser's model: it has the same objects under
the same keys, and `qdict_iter` comes to them in the order of the list. -/
theorem puts_listed (puts : List (Bytes × V)) :
    let es := puts.foldl (fun es e => Json.qdictPutObj es e.1 e.2) []
    ∃ d : QDict V, puts.foldlM (fun d e => qdictPutObj d e.1 e.2) qdictNew = .ok d ∧
      (∀ key, qdictGet d key = .ok (Json.qdictGet es key)) ∧
      ∀ (σ : Type) (iter : σ → Bytes → V → σ) (kept : σ),
        qdictIter d iter kept = .ok (es.foldl (fun kept e => iter kept e.1 e.2) kept) := by
  intro es
  obtain ⟨d, chain, m, put, refines, listed⟩ := new_refines.puts puts
  have start : listing (qdictNew : QDict V) (fun _ => []) = [] := by simp [listing, inOrder]
  rw [start] at listed
  refine ⟨d, put, fun key => ?_, fun σ iter kept => ?_⟩
  · rw [qdictGet_eq refines, ← refines.listing_get, listed]
  · rw [qdictIter_eq refines, listed]

theorem qdictNextEntry_eq (h : Refines d chain m) (i : Nat) :
    qdictNextEntry d i = ((List.range' i (bucketMax - i)).flatMap chain).head? := by
  have first : qlistFirst d = fun b => (chain b).head? := by
    funext b
    exact (h.holds.hangs b).read_eq
  unfold qdictNextEntry
  rw [first, head?_flatMap]

/-- `qdict_next` goes to the entry behind. -/
theorem qdictNext_eq (h : Refines d chain m) (parts : inOrder chain = l ++ p :: r) :
    qdictNext d p = .ok r.head? := by
  have nodup := h.inOrder_nodup
  obtain ⟨e, here⟩ := h.mem_inOrder.mp (parts ▸ mem_append_right l mem_cons_self)
  obtain ⟨l₁, l₂, bucket⟩ := append_of_mem (h.listed p e here)
  have whole := inOrder_split chain (bucketOf_lt e.1)
  have hangs := h.holds.hangs (bucketOf e.1)
  rw [bucket] at hangs
  -- both ways to write the order name what stands behind the entry
  have rest : r = l₂ ++
      (range' (bucketOf e.1 + 1) (bucketMax - (bucketOf e.1 + 1))).flatMap chain := by
    rw [whole, bucket] at nodup parts
    simp only [append_assoc, cons_append] at nodup parts
    rw [← append_assoc] at nodup parts
    rw [parts] at nodup
    obtain ⟨_, once, before⟩ := nodup_append.mp nodup
    refine ((append_cons_inj_of_notMem (fun mem => ?_) ?_).mp parts.symm).2.2
    · exact before p mem p mem_cons_self rfl
    · exact (nodup_cons.mp once).1
  unfold qdictNext
  rw [deref_some here, ok_bind, rest, head?_append,
    show qlistNext d p = l₂.head? from hangs.next_eq]
  cases l₂.head? with
  | some q => rfl
  | none =>
    rw [qdictNextEntry_eq h, Option.none_or]

theorem walkFrom_eq (h : Refines d chain m) (parts : inOrder chain = l ++ r)
    (enough : r.length < n) : walkFrom d n r.head? = .ok (r.filterMap d.entries) := by
  induction r generalizing l n with
  | nil =>
    cases n with
    | zero => cases enough
    | succ n => rfl
  | cons p r ih =>
    cases n with
    | zero => cases enough
    | succ n =>
      obtain ⟨e, here⟩ := h.mem_inOrder.mp (parts ▸ mem_append_right l mem_cons_self)
      rw [head?_cons, walkFrom, deref_some here, ok_bind, qdictNext_eq h parts, ok_bind,
        ih (parts.trans (append_cons l p r)) (by simpa using enough), ok_bind,
        filterMap_cons_some here]

theorem qdict_behaves_as_map (calls : List (Call V)) :
    ∃ d : QDict V, callAll qdictNew calls = .ok (d, (mapCallAll ∅ calls).2) ∧
      qdictSize d = (mapCallAll ∅ calls).1.keys.card ∧
      ∃ seen : List (Bytes × V), (seen.map Prod.fst).Nodup ∧
        (∀ key v, (key, v) ∈ seen ↔ (mapCallAll ∅ calls).1.lookup key = some v) ∧
        (∀ (σ : Type) (iter : σ → Bytes → V → σ) (kept : σ),
          qdictIter d iter kept = .ok (seen.foldl (fun kept e => iter kept e.1 e.2) kept)) ∧
        ∃ rounds, walkFrom d rounds (qdictFirst d) = .ok seen := by
  obtain ⟨d, chain, called, refines⟩ := callAll_refines new_refines calls
  refine ⟨d, called, refines.size, listing d chain, ?_, fun key v => ?_,
    fun σ iter kept => qdictIter_eq refines iter kept, (inOrder chain).length + 1, ?_⟩
  · rw [listing, map_filterMap]
    refine refines.inOrder_nodup.filterMap fun p q key atP atQ => ?_
    obtain ⟨e, hereP, rfl⟩ := Option.map_eq_some_iff.mp atP
    obtain ⟨f, hereQ, same⟩ := Option.map_eq_some_iff.mp atQ
    exact refines.unique p q e f hereP hereQ same.symm
  · exact refines.mem_listing.trans (refines.lookup key v).symm
  · have first : qdictFirst d = (inOrder chain).head? := by
      unfold qdictFirst inOrder
      rw [qdictNextEntry_eq refines, range_eq_range']
      rfl
    rw [first]
    exact walkFrom_eq refines (nil_append _).symm (Nat.lt_succ_self _)

end

end QemuStm32.Qdict
