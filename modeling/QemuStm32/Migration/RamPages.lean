import QemuStm32.Migration.Ram

/-!
# The pages of RAM and the cursor of the source

* `pages_cycle`: the cursor goes around all pages of all blocks;
* `ramSaveBlock_spec`: `ram_save_block` sends a dirty page if there is one;
* `saveAll_spec`: the loop of stage 3 ends, and no page is dirty then.
-/

namespace QemuStm32.Ram

open Runs Readers Savevm Words Cycles List

/-- Blocks with different names and no common address. -/
def Apart (b c : RAMBlock) : Prop :=
  b.idstr ≠ c.idstr ∧ (b.offset + b.length ≤ c.offset ∨ c.offset + c.length ≤ b.offset)

instance (b c : RAMBlock) : Decidable (Apart b c) :=
  inferInstanceAs (Decidable (_ ∧ (_ ∨ _)))

instance : Std.Symm Apart := ⟨fun _ _ apart => ⟨Ne.symm apart.1, apart.2.symm⟩⟩

/-- Blocks as `qemu_ram_alloc` makes them. -/
structure RamBlocks (k : Nat) (blocks : List RAMBlock) : Prop where
  nonempty : blocks ≠ []
  aligned : ∀ b ∈ blocks, 2 ^ k ∣ b.offset ∧ 2 ^ k ∣ b.length ∧ 0 < b.length
  named : ∀ b ∈ blocks, b.idstr.chars.length ≤ 255
  apart : blocks.Pairwise Apart
  total : ramBytesTotal blocks < 2 ^ 64

def pagesOf (k : Nat) (b : RAMBlock) : List Place :=
  (List.range (b.length / 2 ^ k)).map fun i => (b, i * 2 ^ k)

def pages (k : Nat) (blocks : List RAMBlock) : List Place := blocks.flatMap (pagesOf k)

section
variable {k : Nat} {blocks : List RAMBlock} {b c : RAMBlock} {p q : Place}

section
variable (h : RamBlocks k blocks)
include h

theorem RamBlocks.perm {blocks' : List RAMBlock}
    (perm : blocks.Perm blocks') : RamBlocks k blocks' := by
  refine ⟨fun none => h.nonempty ?_, fun b mem => h.aligned b (perm.mem_iff.mpr mem),
    fun b mem => h.named b (perm.mem_iff.mpr mem), ?_, ?_⟩
  · subst none
    exact perm.eq_nil
  · exact (perm.pairwise_iff fun {b c} apart => symm apart).mp h.apart
  · rw [ramBytesTotal, ← (perm.map _).sum_nat]
    exact h.total

theorem RamBlocks.nodup : blocks.Nodup :=
  h.apart.imp fun apart same => apart.1 (congrArg RAMBlock.idstr same)

/-- Two blocks with one name are the same. -/
theorem RamBlocks.eq_of_idstr (hb : b ∈ blocks) (hc : c ∈ blocks)
    (same : b.idstr = c.idstr) : b = c := by
  by_contra ne
  exact (h.apart.forall hb hc ne).1 same

/-! ## Pages -/

theorem mem_pages : p ∈ pages k blocks ↔ p.1 ∈ blocks ∧ 2 ^ k ∣ p.2 ∧ p.2 < p.1.length := by
  have pos : 0 < 2 ^ k := Nat.two_pow_pos k
  unfold pages pagesOf
  simp only [mem_flatMap, mem_map, mem_range]
  constructor
  · rintro ⟨b, mem, i, lt, rfl⟩
    refine ⟨mem, Nat.dvd_mul_left .., ?_⟩
    obtain ⟨n, length⟩ := (h.aligned b mem).2.1
    rw [length, Nat.mul_div_cancel_left _ pos] at lt
    rw [length, Nat.mul_comm]
    exact Nat.mul_lt_mul_of_pos_left lt pos
  · rintro ⟨mem, ⟨i, place⟩, lt⟩
    obtain ⟨n, length⟩ := (h.aligned p.1 mem).2.1
    refine ⟨p.1, mem, i, ?_, ?_⟩
    · rw [length, Nat.mul_div_cancel_left _ pos]
      rw [place, length] at lt
      exact Nat.lt_of_mul_lt_mul_left lt
    · rw [Nat.mul_comm, ← place]

theorem addr_aligned (mem : p ∈ pages k blocks) : 2 ^ k ∣ p.addr := by
  obtain ⟨block, offset, -⟩ := (mem_pages h).mp mem
  exact Nat.dvd_add (h.aligned p.1 block).1 offset

/-- The last page of a block ends with it. -/
theorem page_inside (mem : p ∈ pages k blocks) : p.2 + 2 ^ k ≤ p.1.length := by
  obtain ⟨block, ⟨i, place⟩, lt⟩ := (mem_pages h).mp mem
  obtain ⟨n, length⟩ := (h.aligned p.1 block).2.1
  rw [place, length] at lt
  rw [place, length]
  exact Nat.mul_le_mul_left _ (Nat.lt_of_mul_lt_mul_left lt)

section
variable (hp : p ∈ pages k blocks)
include hp

/-- Different pages do not overlap. -/
theorem pages_apart (hq : q ∈ pages k blocks)
    (ne : p ≠ q) : p.addr + 2 ^ k ≤ q.addr ∨ q.addr + 2 ^ k ≤ p.addr := by
  obtain ⟨pBlock, pOffset, -⟩ := (mem_pages h).mp hp
  obtain ⟨qBlock, qOffset, -⟩ := (mem_pages h).mp hq
  have pIn := page_inside h hp
  have qIn := page_inside h hq
  unfold Place.addr
  by_cases same : p.1 = q.1
  · have other : p.2 ≠ q.2 := fun e => ne (Prod.ext same e)
    obtain ⟨i, pPlace⟩ := pOffset
    obtain ⟨j, qPlace⟩ := qOffset
    have differ : i ≠ j := fun e => other (by rw [pPlace, qPlace, e])
    rw [same]
    obtain lt | gt := Nat.lt_or_gt_of_ne differ
    · have := Nat.mul_le_mul_left (2 ^ k) (Nat.succ_le_of_lt lt)
      rw [Nat.mul_succ] at this
      omega
    · have := Nat.mul_le_mul_left (2 ^ k) (Nat.succ_le_of_lt gt)
      rw [Nat.mul_succ] at this
      omega
  · obtain ⟨-, before | after⟩ := h.apart.forall pBlock qBlock same <;> omega

/-- A byte belongs to one page. -/
theorem number_eq {a : Nat} : a / 2 ^ k = p.addr / 2 ^ k ↔ p.addr ≤ a ∧ a < p.addr + 2 ^ k := by
  obtain ⟨n, aligned⟩ := addr_aligned h hp
  have pos : 0 < 2 ^ k := Nat.two_pow_pos k
  rw [aligned, Nat.mul_div_cancel_left _ pos, Nat.div_eq_iff pos, Nat.mul_comm n]
  omega

theorem number_inj (hq : q ∈ pages k blocks) (same : q.addr / 2 ^ k = p.addr / 2 ^ k) : q = p := by
  by_contra ne
  have near := (number_eq h hp).mp same
  have := pages_apart h hq hp ne
  omega

theorem addr_inj (hq : q ∈ pages k blocks)
    (same : q.addr = p.addr) : q = p := number_inj h hp hq (by rw [same])

end

end

theorem pagesOf_getElem? (b : RAMBlock) (j : Nat) :
    (pagesOf k b)[j]? = if j < b.length / 2 ^ k then some (b, j * 2 ^ k) else none := by
  unfold pagesOf
  rw [getElem?_map]
  split
  · rename_i lt
    rw [getElem?_range lt]
    rfl
  · rename_i ge
    rw [getElem?_eq_none (by simpa using ge)]
    rfl

theorem pages_nodup (h : RamBlocks k blocks) : (pages k blocks).Nodup := by
  have pos : 0 < 2 ^ k := Nat.two_pow_pos k
  refine nodup_flatMap.mpr ⟨fun b _ => ?_, ?_⟩
  · refine List.Nodup.map (fun i j same => ?_) nodup_range
    exact Nat.eq_of_mul_eq_mul_right pos (congrArg Prod.snd same)
  · refine h.nodup.imp fun ne p hp hq => ne ?_
    obtain ⟨i, -, rfl⟩ := mem_map.mp hp
    obtain ⟨j, -, same⟩ := mem_map.mp hq
    exact (congrArg Prod.fst same).symm

/-! ## The cursor -/

variable {before after : List RAMBlock} {t : Source} {bytes : List Byte}

theorem nextBlock_eq (nodup : blocks.Nodup) (split : blocks = before ++ b :: after) :
    nextBlock blocks b = after.headD (blocks.headD b) := by
  have cut : (blocks.dropWhile fun c => decide (c ≠ b)) = b :: after := by
    subst split
    rw [nodup_append] at nodup
    rw [dropWhile_append_of_pos, dropWhile_cons_of_neg (by simp)]
    intro c mem
    simpa using nodup.2.2 c mem b mem_cons_self
  unfold nextBlock
  rw [cut]
  cases after with
  | nil | cons c after => rfl

theorem pages_head (h : RamBlocks k blocks) {suffix : List RAMBlock}
    (sub : ∀ c ∈ suffix, c ∈ blocks) :
    (pages k suffix).head? = suffix.head?.map fun b => (b, 0) := by
  have pos : 0 < 2 ^ k := Nat.two_pow_pos k
  cases suffix with
  | nil => rfl
  | cons b suffix =>
    obtain ⟨-, ⟨n, length⟩, positive⟩ := h.aligned b (sub b mem_cons_self)
    have some : 0 < b.length / 2 ^ k := by
      rw [length, Nat.mul_div_cancel_left _ pos]
      exact Nat.pos_of_mul_pos_left (length ▸ positive)
    have first := pagesOf_getElem? (k := k) b 0
    rw [if_pos some, Nat.zero_mul] at first
    rw [pages, flatMap_cons, head?_append, head?_eq_getElem?, first]
    rfl

/-- Behind a page of the last blocks comes the next one, or the first page of all. -/
theorem advance_suffix (h : RamBlocks k blocks) (split : blocks = before ++ after)
    {l r : List Place} (pageSplit : pages k after = l ++ p :: r) :
    (r ++ (pages k blocks).head?.toList).head? = some (advance k blocks p) := by
  have pos : 0 < 2 ^ k := Nat.two_pow_pos k
  have front : (pages k blocks).head? = some (blocks.headD p.1, 0) := by
    rw [pages_head h fun _ mem => mem]
    cases blocks with
    | nil => exact absurd rfl h.nonempty
    | cons b blocks => rfl
  induction after generalizing before l with
  | nil =>
    rw [pages] at pageSplit
    simp at pageSplit
  | cons b after ih =>
    rw [pages, flatMap_cons] at pageSplit
    obtain ⟨l', rfl, rest⟩ | ⟨r', block, rest⟩ := append_eq_append_iff.mp pageSplit
    · exact ih (show blocks = before ++ [b] ++ after by rw [split]; simp) rest
    cases r' with
    | nil =>
      -- the page is the first one of the blocks behind `b`
      exact ih (l := []) (show blocks = before ++ [b] ++ after by rw [split]; simp) rest.symm
    | cons p' r' =>
      rw [cons_append] at rest
      obtain ⟨rfl, rfl⟩ := cons.inj rest
      have mem : b ∈ blocks := by simp [split]
      obtain ⟨-, ⟨n, length⟩, -⟩ := h.aligned b mem
      have count : b.length / 2 ^ k = n := by rw [length, Nat.mul_div_cancel_left _ pos]
      have here := pagesOf_getElem? (k := k) b l.length
      have next := pagesOf_getElem? (k := k) b (l.length + 1)
      rw [block, getElem?_append_right le_rfl, Nat.sub_self, count] at here
      rw [block, getElem?_append_right (Nat.le_add_right _ 1), Nat.add_sub_cancel_left,
        count] at next
      obtain ⟨lt, place⟩ : l.length < n ∧ p = (b, l.length * 2 ^ k) := by
        split at here
        · rename_i lt
          exact ⟨lt, Option.some.inj here⟩
        · cases here
      subst place
      have nextIs : l.length * 2 ^ k + 2 ^ k = (l.length + 1) * 2 ^ k := (Nat.succ_mul ..).symm
      unfold advance
      rw [nextIs]
      cases r' with
      | nil =>
        have last : ¬l.length + 1 < n := by
          intro more
          rw [if_pos more] at next
          cases next
        rw [if_pos, nextBlock_eq h.nodup split, nil_append, front]
        · cases after with
          | nil => rfl
          | cons c after =>
            have others : (pages k (c :: after)).head? = some (c, 0) :=
              pages_head h fun d inside => by
                rw [split]
                exact mem_append_right _ (.tail _ inside)
            unfold pages at others
            rw [head?_append, others]
            rfl
        · rw [length, Nat.mul_comm]
          exact Nat.mul_le_mul_left _ (Nat.le_of_not_lt last)
      | cons q r' =>
        have more : l.length + 1 < n := by
          by_contra last
          rw [if_neg last] at next
          cases next
        rw [if_pos more] at next
        rw [if_neg]
        · simpa using next
        · rw [length, Nat.mul_comm]
          exact Nat.not_le_of_lt (Nat.mul_lt_mul_of_pos_left more pos)

/-- The cursor goes around all pages. -/
theorem pages_cycle (h : RamBlocks k blocks) : Cycle (advance k blocks) (pages k blocks) := by
  intro l p r split
  have goes := advance_suffix h (show blocks = [] ++ blocks from rfl) split
  cases r with
  | cons q r => exact goes
  | nil =>
    rw [← goes, split]
    cases l with
    | nil | cons q l => rfl

/-- Where the cursor can be: before the first page, which is dirty then, or at a page. -/
def Cursor (k : Nat) (s : Source) : Prop :=
  match s.lastBlock with
  | none => s.lastOffset = 0 ∧ ∃ b ∈ s.blocks.head?, isDirty k s (b, 0) = true
  | some last => (last, s.lastOffset) ∈ pages k s.blocks

/-- The source after the page at `p` was sent. -/
def Source.sent (k : Nat) (s : Source) (p : Place) : Source :=
  { s with
    lastBlock := some p.1
    lastOffset := p.2
    dirty := Function.update s.dirty (p.addr / 2 ^ k) false }

variable {s s' : Source} {rounds : Nat}

theorem saveLoop_eq_sweep {last : RAMBlock} (some_last : s.lastBlock = some last) (rounds : Nat)
    (p : Place) :
    saveLoop k s rounds p =
      match sweep (advance k s.blocks) (isDirty k s)
          (fun q => decide (q.addr = Place.addr (last, s.lastOffset))) rounds p with
      | some r => .ok r
      | none => .error .endlessLoop := by
  induction rounds generalizing p with
  | zero => rfl
  | succ rounds ih =>
    rw [saveLoop, sweep, some_last]
    cases isDirty k s p with
    | true => rfl
    | false =>
      by_cases back : (advance k s.blocks p).addr = Place.addr (last, s.lastOffset)
      · simp [back]
      · simp [back, ih]

/-- `ram_save_block` sends a dirty page, or there is none. -/
theorem ramSaveBlock_spec (h : RamBlocks k s.blocks) (cursor : Cursor k s)
    (enough : (pages k s.blocks).length ≤ rounds) :
    (∃ p ∈ pages k s.blocks, isDirty k s p = true ∧ ramSaveBlock k rounds s =
      .ok ((savePage k s p).1, (savePage k s p).2, s.sent k p)) ∨
    (∀ p ∈ pages k s.blocks, isDirty k s p = false) ∧ ramSaveBlock k rounds s = .ok (0, [], s) := by
  unfold Cursor at cursor
  unfold ramSaveBlock
  cases found : s.lastBlock with
  | none =>
    rw [found] at cursor
    obtain ⟨zero, b, first, dirty⟩ := cursor
    have mem : (b, 0) ∈ pages k s.blocks := by
      have head := pages_head h fun _ mem => mem
      rw [Option.mem_def.mp first] at head
      exact mem_of_head? head
    obtain ⟨rounds, rfl⟩ := Nat.exists_eq_add_one_of_ne_zero
      (Nat.ne_zero_of_lt (Nat.lt_of_lt_of_le (length_pos_of_mem mem) enough))
    left
    refine ⟨(b, 0), mem, dirty, ?_⟩
    rw [Option.none_or, Option.mem_def.mp first]
    dsimp only
    rw [zero, saveLoop, if_pos dirty]
    rfl
  | some last =>
    rw [found] at cursor
    rw [Option.some_or]
    dsimp only
    rw [saveLoop_eq_sweep found]
    obtain ⟨p, mem, dirty, swept⟩ | ⟨clean, swept⟩ :=
      (pages_cycle h).sweep (isDirty k s)
        (fun q => decide (q.addr = Place.addr (last, s.lastOffset))) cursor (pages_nodup h)
        (fun q inside => by
          rw [decide_eq_true_iff]
          exact ⟨addr_inj h cursor inside, fun same => by rw [same]⟩) enough
    · rw [swept]
      exact .inl ⟨p, mem, dirty, rfl⟩
    · rw [swept]
      refine .inr ⟨clean, ?_⟩
      cases s
      cases found
      rfl

theorem sent_cursor {p : Place} (mem : p ∈ pages k s.blocks) : Cursor k (s.sent k p) := mem

theorem savePage_sent (s : Source) (p : Place) : (savePage k s p).1 ≠ 0 := by
  unfold savePage
  dsimp only
  split
  · exact Nat.one_ne_zero
  · exact Nat.ne_of_gt (Nat.two_pow_pos k)

/-- Sending a page makes it clean and changes no other page. -/
theorem isDirty_sent (h : RamBlocks k s.blocks) (hp : p ∈ pages k s.blocks)
    (hq : q ∈ pages k s.blocks) :
    isDirty k (s.sent k p) q = if q = p then false else isDirty k s q := by
  unfold isDirty Source.sent
  dsimp only
  split
  · rename_i same
    rw [same, Function.update_self]
  · rename_i ne
    rw [Function.update_of_ne fun same => ne (number_inj h hp hq same)]

/-- A relation between the source before and after the pages that were sent. -/
inductive Sends (k : Nat) : Source → List Byte → Source → Prop
  | done (s : Source) : Sends k s [] s
  | page {s t : Source} {p : Place} {bytes : List Byte} (mem : p ∈ pages k s.blocks)
      (rest : Sends k (s.sent k p) bytes t) : Sends k s ((savePage k s p).2 ++ bytes) t

theorem Sends.trans {u : Source} {more : List Byte} (first : Sends k s bytes t)
    (second : Sends k t more u) : Sends k s (bytes ++ more) u := by
  induction first with
  | done s => exact second
  | page mem rest ih =>
    rw [append_assoc]
    exact .page mem (ih second)

theorem Sends.keeps (sends : Sends k s bytes t) : t.blocks = s.blocks ∧ t.mem = s.mem := by
  induction sends with
  | done s => exact ⟨rfl, rfl⟩
  | page mem rest ih => exact ih

theorem saveSome_spec (limit : Nat) (h : RamBlocks k s.blocks) (cursor : Cursor k s)
    (enough : (pages k s.blocks).length ≤ rounds) :
    ∃ bytes t, saveSome k rounds limit s = .ok (bytes, t) ∧ Sends k s bytes t ∧ Cursor k t := by
  induction limit generalizing s with
  | zero => exact ⟨[], s, rfl, .done s, cursor⟩
  | succ limit ih =>
    rw [saveSome]
    obtain ⟨p, mem, -, saved⟩ | ⟨-, saved⟩ := ramSaveBlock_spec h cursor enough
    · obtain ⟨bytes, t, more, sends, cursor'⟩ := ih (s := s.sent k p) h (sent_cursor mem) enough
      rw [saved, ok_bind]
      dsimp only
      rw [if_neg (savePage_sent s p), more]
      exact ⟨_, t, rfl, .page mem sends, cursor'⟩
    · rw [saved]
      exact ⟨[], s, rfl, .done s, cursor⟩

theorem countP_sent (h : RamBlocks k s.blocks) (mem : p ∈ pages k s.blocks)
    (dirty : isDirty k s p = true) :
    (pages k s.blocks).countP (isDirty k (s.sent k p)) <
      (pages k s.blocks).countP (isDirty k s) := by
  obtain ⟨l, r, split⟩ := append_of_mem mem
  have weaker : ∀ q ∈ pages k s.blocks, isDirty k (s.sent k p) q = true → isDirty k s q = true := by
    intro q inside
    rw [isDirty_sent h mem inside]
    split
    · exact nofun
    · exact id
  have clean : isDirty k (s.sent k p) p = false := by rw [isDirty_sent h mem mem, if_pos rfl]
  rw [split] at weaker ⊢
  rw [countP_append, countP_append, countP_cons_of_neg (by simp [clean]), countP_cons_of_pos dirty]
  have left := countP_mono_left fun q inside =>
    weaker q (mem_append_left _ inside)
  have right := countP_mono_left fun q inside =>
    weaker q (mem_append_right _ (.tail _ inside))
  omega

/-- The loop of stage 3 ends after as many rounds as there are dirty pages, and one more. -/
theorem saveAll_spec {n : Nat} (h : RamBlocks k s.blocks) (cursor : Cursor k s)
    (enough : (pages k s.blocks).length ≤ rounds)
    (many : (pages k s.blocks).countP (isDirty k s) < n) :
    ∃ bytes t, saveAll k rounds n s = .ok (bytes, t) ∧ Sends k s bytes t ∧
      ∀ p ∈ pages k t.blocks, isDirty k t p = false := by
  induction n generalizing s with
  | zero => cases many
  | succ n ih =>
    rw [saveAll]
    obtain ⟨p, mem, dirty, saved⟩ | ⟨clean, saved⟩ := ramSaveBlock_spec h cursor enough
    · have fewer := countP_sent h mem dirty
      obtain ⟨bytes, t, more, sends, clean⟩ :=
        ih (s := s.sent k p) h (sent_cursor mem) enough
          (fewer.trans_le (Nat.le_of_lt_succ many))
      rw [saved, ok_bind]
      dsimp only
      rw [if_neg (savePage_sent s p), more]
      exact ⟨_, t, rfl, .page mem sends, clean⟩
    · rw [saved]
      exact ⟨[], s, rfl, .done s, clean⟩

end

end QemuStm32.Ram
