import QemuStm32.Migration.RamPages
import QemuStm32.Savevm.Delivery

/-!
# The stream of RAM pages

What `ram_load` does with each part that `ram_save_live` sends.

* `ramLoad_page`: a page is written into the block of the same name;
* `ramLoad_blockList`: the list of blocks is accepted;
* `ramLoad_eos`: the end of a section ends the call.
-/

namespace QemuStm32.Ram

open Runs Readers Savevm Words List

section
variable {k : Nat} {blocks : List RAMBlock} {s : Source} {r : Receiver} {p : Place}
variable {rest : List Byte} {taken : Nat} {host : Option Nat}

/-- A destination with the same blocks, possibly at other addresses and in another order. -/
structure Mirrors (k : Nat) (blocks : List RAMBlock) (r : Receiver) : Prop where
  own : RamBlocks k r.blocks
  same : (blocks.map fun b => (b.idstr, b.length)).Perm (r.blocks.map fun b => (b.idstr, b.length))

variable {b b' : RAMBlock} {flags rounds : Nat}

theorem Mirrors.counterpart (h : Mirrors k blocks r) (mem : b ∈ blocks) :
    ∃ b' ∈ r.blocks, b'.idstr = b.idstr ∧ b'.length = b.length := by
  have image := h.same.mem_iff.mp (mem_map_of_mem mem)
  obtain ⟨b', inside, same⟩ := mem_map.mp image
  exact ⟨b', inside, congrArg Prod.fst same, congrArg Prod.snd same⟩

theorem Mirrors.find (h : Mirrors k blocks r) (mem : b ∈ r.blocks) :
    r.blocks.find? (fun block => block.idstr = b.idstr) = some b := by
  have named : r.blocks.find? (fun block => decide (block.idstr = b.idstr)) ≠ none := by
    intro none
    simpa using find?_eq_none.mp none b mem
  obtain ⟨c, found⟩ := Option.ne_none_iff_exists'.mp named
  have same := find?_some found
  rw [found, h.own.eq_of_idstr (mem_of_find?_eq_some found) mem (by simpa using same)]

/-! ## Numbers and names -/

theorem run_getBe64 {v : Nat} (small : v < 2 ^ 64) (failed : Bool) :
    getBe64.run ⟨putBe64 v ++ rest, taken, failed⟩ = .ok (v, ⟨rest, taken + 8, failed⟩) := by
  unfold getBe64 putBe64
  rw [append_assoc, Reader.run_bind_ok (Reader.run_getBe32 _ _ _ _),
    Reader.run_bind_ok (Reader.run_getBe32 _ _ _ _)]
  have value : (BitVec.ofNat 32 (v / 2 ^ 32)).toNat * 2 ^ 32 + (BitVec.ofNat 32 v).toNat = v := by
    rw [BitVec.toNat_ofNat, BitVec.toNat_ofNat]
    omega
  rw [value]
  rfl

theorem run_getIdstr (short : b.idstr.chars.length ≤ 255) (failed : Bool) :
    getIdstr.run ⟨putIdstr b ++ rest, taken, failed⟩ =
      .ok (b.idstr, ⟨rest, taken + (putIdstr b).length, failed⟩) := by
  have length : (BitVec.ofNat 8 b.idstr.chars.length).toNat = b.idstr.chars.length := by
    rw [BitVec.toNat_ofNat, Nat.mod_eq_of_lt (by omega)]
  unfold getIdstr putIdstr
  rw [cons_append, Reader.run_bind_ok (run_getByte_cons _ _ _ _), length,
    Reader.run_bind_ok (run_getBuffer rfl _ _ _), readIdstr_chars, Nat.add_right_comm]
  rfl

/-- The flags of a record are below the page size, and its offset a multiple of it. -/
theorem record_value {offset : Nat} (aligned : 2 ^ k ∣ offset) (small : flags < 2 ^ k) :
    offset ||| flags = offset + flags ∧ (offset ||| flags) % 2 ^ k = flags ∧
      (offset ||| flags) / 2 ^ k * 2 ^ k = offset := by
  obtain ⟨n, rfl⟩ := aligned
  have pos : 0 < 2 ^ k := Nat.two_pow_pos k
  have sum : 2 ^ k * n ||| flags = 2 ^ k * n + flags := (Nat.two_pow_add_eq_or_of_lt small n).symm
  refine ⟨sum, ?_, ?_⟩
  · rw [sum, Nat.mul_add_mod, Nat.mod_eq_of_lt small]
  · rw [sum, Nat.mul_add_div pos, Nat.div_eq_of_lt small, Nat.add_zero, Nat.mul_comm]

theorem flags_small (wide : 6 ≤ k) (small : flags < 64) : flags < 2 ^ k :=
  Nat.lt_of_lt_of_le small (Nat.pow_le_pow_right (n := 2) (by decide) wide)

/-! ## Pages -/

theorem isDupPage_iff (wide : 6 ≤ k) (mem : Memory) (page : Nat) (ch : Byte) :
    isDupPage k mem page ch = true ↔ ∀ i < 2 ^ k, mem (page + i) = ch := by
  have four : 2 ^ k = 4 * (2 ^ k / 4) :=
    (Nat.mul_div_cancel' (Nat.pow_dvd_pow 2 (show 2 ≤ k by omega))).symm
  have word : ∀ a, loadWord mem a = ch ++ ch ++ ch ++ ch ↔ ∀ i < 4, mem (a + i) = ch :=
    fun a => loadWord_eq_iff (g := fun _ => ch) (b := 0)
  unfold isDupPage
  simp only [all_eq_true, mem_range, beq_iff_eq, word]
  constructor
  · intro all i lt
    have byte := all (i / 4) (by omega) (i % 4) (by omega)
    rwa [Nat.add_assoc, Nat.div_add_mod] at byte
  · intro all i lt j small
    rw [Nat.add_assoc]
    exact all _ (by omega)

/-- A page of equal bytes is what `memset` writes. -/
theorem readPage_of_dup (wide : 6 ≤ k) {mem : Memory} {page : Nat}
    (dup : isDupPage k mem page (mem page) = true) :
    readPage k mem page = List.replicate (2 ^ k) (mem page) := by
  refine eq_replicate_iff.mpr ⟨by simp [readPage], fun byte inside => ?_⟩
  obtain ⟨i, lt, rfl⟩ := mem_map.mp inside
  exact (isDupPage_iff wide mem page _).mp dup i (mem_range.mp lt)

theorem writeBytes_readPage (mem other : Memory) (a page b : Nat) :
    writeBytes mem a (readPage k other page) b =
      if a ≤ b ∧ b < a + 2 ^ k then other (page + (b - a)) else mem b := by
  unfold writeBytes readPage
  split
  · rw [getElem?_map]
    split
    · rw [getElem?_range (by omega)]
      rfl
    · rw [getElem?_eq_none (by simp; omega)]
      rfl
  · rename_i lt
    rw [if_neg fun inside => lt inside.1]

/-- The destination after a page of the block `b'`. -/
def Receiver.got (k : Nat) (r : Receiver) (b' : RAMBlock) (s : Source) (p : Place) : Receiver :=
  { r with
    mem := writeBytes r.mem (b'.offset + p.2) (readPage k s.mem p.addr)
    block := some b' }

/-- No block has a second page in a host page, if memory is given back. -/
def Spares (k : Nat) (host : Option Nat) (blocks : List RAMBlock) : Prop :=
  ∀ j, host = some j → j ≤ k ∨ ∀ b ∈ blocks, b.length ≤ 2 ^ k

/-- A page of zeros stays one if its memory is given back, and nothing else changes. -/
theorem Spares.discards {mem : Memory} {ch : Byte} (spares : Spares k host r.blocks)
    (inside : p.1 ∈ r.blocks) (filled : ∀ a, p.addr ≤ a → a < p.addr + 2 ^ k → mem a = ch) :
    (if ch = 0 then host.elim mem fun j => qemuMadvise k j mem p else mem) = mem := by
  refine ite_eq_right_iff.mpr fun zero => ?_
  cases host with
  | none => rfl
  | some j =>
    funext a
    refine ite_eq_right_iff.mpr fun ⟨_, low, high, ends⟩ => zero ▸ (filled a low ?_).symm
    unfold Place.addr at *
    obtain fits | short := spares j rfl
    · have := Nat.pow_le_pow_right (n := 2) (by decide) fits
      omega
    · have := short _ inside
      omega

/-- The destination remembers the block that the source will not name again. -/
def Remembers (s : Source) (r : Receiver) : Prop :=
  ∀ b, s.lastBlock = some b → ∃ b' ∈ r.blocks, b'.idstr = b.idstr ∧ r.block = some b'

/-- The flag, and the name behind the number, as `ram_save_block` chooses them. -/
def contOf (s : Source) (p : Place) : Nat := if some p.1 = s.lastBlock then flagContinue else 0

def nameOf (s : Source) (p : Place) : List Byte :=
  if contOf s p = 0 then putIdstr p.1 else []

theorem hostFromStreamOffset_run (mirrors : Mirrors k blocks r) (remembers : Remembers s r)
    (named : p.1.idstr.chars.length ≤ 255) (inside : b' ∈ r.blocks) (same : b'.idstr = p.1.idstr)
    (cont : flags &&& flagContinue = contOf s p) (offset : Nat) :
    (hostFromStreamOffset r offset flags).run ⟨nameOf s p ++ rest, taken, false⟩ =
      .ok ((some (b', offset), { r with block := some b' }),
        ⟨rest, taken + (nameOf s p).length, false⟩) := by
  unfold hostFromStreamOffset nameOf
  rw [cont]
  unfold contOf
  by_cases again : some p.1 = s.lastBlock
  · obtain ⟨b, found, name, block⟩ := remembers p.1 again.symm
    obtain rfl := mirrors.own.eq_of_idstr found inside (name.trans same.symm)
    rw [if_pos again]
    cases r
    cases block
    rfl
  · rw [if_neg again, if_neg (by decide), if_pos rfl,
      Reader.run_bind_ok (run_getIdstr named false), ← same, mirrors.find inside]
    rfl

/-- What a record with only the flags of a page is for the destination. -/
theorem page_flags (s : Source) (p : Place) {flag : Nat}
    (is : flag = flagCompress ∨ flag = flagPage) :
    contOf s p ||| flag < 64 ∧ (contOf s p ||| flag) &&& flagMemSize = 0 ∧
      (contOf s p ||| flag) &&& flagEos = 0 ∧
      (contOf s p ||| flag) &&& flagContinue = contOf s p ∧
      (contOf s p ||| flag) &&& flagCompress = flag &&& flagCompress ∧
      (contOf s p ||| flag) &&& flagPage = flag &&& flagPage := by
  have cont : contOf s p = flagContinue ∨ contOf s p = 0 := by
    unfold contOf
    split
    · exact .inl rfl
    · exact .inr rfl
  obtain cont | cont := cont <;> obtain rfl | rfl := is <;> rw [cont] <;> decide

theorem length_le_total (mem : b ∈ blocks) : b.length ≤ ramBytesTotal blocks := by
  obtain ⟨l, r, rfl⟩ := append_of_mem mem
  unfold ramBytesTotal
  rw [map_append, sum_append, map_cons, sum_cons]
  omega

/-- A page is written into the block of the same name. -/
theorem loadPage_run (wide : 6 ≤ k) (mirrors : Mirrors k blocks r)
    (spares : Spares k host r.blocks) (remembers : Remembers s r)
    (named : p.1.idstr.chars.length ≤ 255) (inside : b' ∈ r.blocks) (same : b'.idstr = p.1.idstr)
    (rest : List Byte) (taken : Nat) :
    ∃ flag taken', (flag = flagCompress ∨ flag = flagPage) ∧
      ∃ bytes, (savePage k s p).2 = putBe64 (p.2 ||| contOf s p ||| flag) ++ bytes ∧
      (loadPage k host r p.2 (contOf s p ||| flag)).run ⟨bytes ++ rest, taken, false⟩ =
        .ok (some (r.got k b' s p), ⟨rest, taken', false⟩) := by
  have named : ∀ {flag : Nat} is (rest),
      (hostFromStreamOffset r p.2 (contOf s p ||| flag)).run ⟨nameOf s p ++ rest, taken, false⟩ =
        .ok ((some (b', p.2), { r with block := some b' }),
          ⟨rest, taken + (nameOf s p).length, false⟩) := fun is rest =>
    hostFromStreamOffset_run mirrors remembers named inside same (page_flags s p is).2.2.2.1 p.2
  unfold loadPage
  by_cases dup : isDupPage k s.mem p.addr (s.mem p.addr) = true
  · refine ⟨flagCompress, taken + (nameOf s p).length + 1, .inl rfl,
      nameOf s p ++ [s.mem p.addr], ?_, ?_⟩
    · unfold savePage
      rw [if_pos dup]
      rfl
    · rw [if_pos (by rw [(page_flags s p (.inl rfl)).2.2.2.2.1]; decide), append_assoc,
        Reader.run_bind_ok (named (.inl rfl) _)]
      rw [cons_append, Reader.run_bind_ok (run_getByte_cons _ _ _ _), ← readPage_of_dup wide dup]
      dsimp only
      rw [spares.discards (p := (b', p.2)) inside fun a low high => ?_]
      · rfl
      · rw [writeBytes_readPage, if_pos ⟨low, high⟩]
        exact (isDupPage_iff wide _ _ _).mp dup _ (by omega)
  · refine ⟨flagPage, taken + (nameOf s p).length + 2 ^ k, .inr rfl,
      nameOf s p ++ readPage k s.mem p.addr, ?_, ?_⟩
    · unfold savePage
      rw [if_neg dup]
      rfl
    · rw [if_neg (by rw [(page_flags s p (.inr rfl)).2.2.2.2.1]; decide),
        if_pos (by rw [(page_flags s p (.inr rfl)).2.2.2.2.2]; decide), append_assoc,
        Reader.run_bind_ok (named (.inr rfl) _)]
      rw [Reader.run_bind_ok (run_getBuffer (by simp [readPage]) _ _ _)]
      rfl

theorem ramLoad_page (wide : 6 ≤ k) (h : RamBlocks k s.blocks) (mirrors : Mirrors k s.blocks r)
    (spares : Spares k host r.blocks) (remembers : Remembers s r) (mem : p ∈ pages k s.blocks)
    (inside : b' ∈ r.blocks) (same : b'.idstr = p.1.idstr) (rounds : Nat) (rest : List Byte)
    (taken : Nat) :
    ∃ taken', (ramLoad k host (rounds + 1) r).run ⟨(savePage k s p).2 ++ rest, taken, false⟩ =
      (ramLoad k host rounds (r.got k b' s p)).run ⟨rest, taken', false⟩ := by
  obtain ⟨block, aligned, lt⟩ := (mem_pages h).mp mem
  have small : p.2 < 2 ^ 64 := Nat.lt_trans (Nat.lt_of_lt_of_le lt (length_le_total block)) h.total
  obtain ⟨flag, taken', is, bytes, sent, loaded⟩ :=
    loadPage_run wide mirrors spares remembers (h.named p.1 block) inside same rest (taken + 8)
  obtain ⟨flags, noSize, noEos, -⟩ := page_flags s p is
  obtain ⟨-, low, high⟩ := record_value aligned (flags_small wide flags)
  have fits : p.2 ||| (contOf s p ||| flag) < 2 ^ 64 := Nat.or_lt_two_pow small (by omega)
  refine ⟨taken', ?_⟩
  rw [sent, append_assoc, ramLoad, Nat.or_assoc, Reader.run_bind_ok (run_getBe64 fits false)]
  dsimp only
  rw [low, high, noSize, if_neg (by decide), Reader.run_pure_bind]
  rw [Reader.run_bind_ok loaded]
  rw [noEos]
  rfl

/-! ## The list of blocks and the end of a section -/

theorem ramLoad_eos (wide : 6 ≤ k) (rounds : Nat) :
    (ramLoad k host (rounds + 1) r).run ⟨putBe64 flagEos ++ rest, taken, false⟩ =
      .ok ((0, r), ⟨rest, taken + 8, false⟩) := by
  obtain ⟨-, low, high⟩ :=
    record_value (Nat.dvd_zero _) (flags_small wide (show flagEos < 64 by decide))
  rw [Nat.zero_or] at low
  rw [ramLoad, Reader.run_bind_ok (run_getBe64 (by decide) false)]
  rw [low]
  rfl

theorem syncBlocks_run (h : RamBlocks k blocks) (mirrors : Mirrors k blocks r) {l : List RAMBlock}
    (sub : ∀ b ∈ l, b ∈ blocks) (total : ramBytesTotal l < 2 ^ 64) (enough : l.length ≤ rounds)
    (rest : List Byte) (taken : Nat) :
    ∃ taken', (syncBlocks r rounds (ramBytesTotal l)).run
      ⟨l.flatMap (fun b => putIdstr b ++ putBe64 b.length) ++ rest, taken, false⟩ =
        .ok (none, ⟨rest, taken', false⟩) := by
  induction l generalizing rounds taken with
  | nil =>
    refine ⟨taken, ?_⟩
    cases rounds with
    | zero | succ rounds => rfl
  | cons b l ih =>
    obtain ⟨rounds, rfl⟩ := Nat.exists_eq_add_one_of_ne_zero (Nat.ne_zero_of_lt enough)
    have block := sub b mem_cons_self
    obtain ⟨-, -, positive⟩ := h.aligned b block
    obtain ⟨b', inside, same, length⟩ := mirrors.counterpart block
    have sum : ramBytesTotal (b :: l) = b.length + ramBytesTotal l := by
      unfold ramBytesTotal
      rw [map_cons, sum_cons]
    obtain ⟨taken', rest'⟩ := ih (fun c mem => sub c (mem_cons_of_mem b mem)) (by omega)
      (Nat.le_of_succ_le_succ enough) (taken + (putIdstr b).length + 8)
    refine ⟨taken', ?_⟩
    rw [syncBlocks, flatMap_cons, append_assoc, append_assoc,
      Reader.run_bind_ok (run_getIdstr (h.named b block) false),
      Reader.run_bind_ok (run_getBe64 (by omega) false), ← same, mirrors.find inside]
    · dsimp only
      rw [if_neg (by rw [length]; exact fun ne => ne rfl), ← rest']
      congr 2
      omega
    · omega

/-- The destination accepts the blocks of the source. -/
theorem ramLoad_blockList (wide : 6 ≤ k) (h : RamBlocks k blocks) (mirrors : Mirrors k blocks r)
    (enough : blocks.length ≤ rounds) (rest : List Byte) (taken : Nat) :
    ∃ taken', (ramLoad k host (rounds + 1) r).run ⟨blockList blocks ++ rest, taken, false⟩ =
      (ramLoad k host rounds r).run ⟨rest, taken', false⟩ := by
  have aligned : 2 ^ k ∣ ramBytesTotal blocks := by
    refine dvd_sum fun length mem => ?_
    obtain ⟨b, block, rfl⟩ := mem_map.mp mem
    exact (h.aligned b block).2.1
  obtain ⟨-, low, high⟩ := record_value aligned (flags_small wide (show flagMemSize < 64 by decide))
  obtain ⟨taken', synced⟩ := syncBlocks_run h mirrors (fun _ mem => mem) h.total enough
    rest (taken + 8)
  refine ⟨taken', ?_⟩
  rw [blockList, append_assoc, ramLoad,
    Reader.run_bind_ok (run_getBe64 (Nat.or_lt_two_pow h.total (by decide)) false)]
  rw [low, high, if_pos (by decide), Reader.run_bind_ok synced]
  rfl

end

end QemuStm32.Ram
