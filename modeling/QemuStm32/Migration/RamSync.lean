import QemuStm32.Migration.RamStream

/-!
# The destination catches up with the source

A page that is not dirty holds the same bytes on both sides once all that was sent is loaded.
Guest writes keep this because they make their page dirty, `ram_save_block` because it sends
the page that it makes clean.

* `Synced.write`, `Synced.got`: one guest write, one page;
* `Sends.loads`: all pages that a loop sends;
* `ramStep_catches`: one call of `ram_save_live`, or one write, between the first and the last;
* `ram_migrated`: after stage 3 the destination has the RAM of the source.
-/

namespace QemuStm32.Ram

open Runs Readers Savevm Words Function List

section
variable {k : Nat} {blocks : List RAMBlock} {s t : Source} {r r' : Receiver} {p : Place}
variable {host : Option Nat}

/-! ## Clean pages -/

variable {b' : RAMBlock} {bytes : List Byte} {r₂ : Receiver}

theorem Mirrors.page (h : RamBlocks k blocks) (mirrors : Mirrors k blocks r)
    (mem : p ∈ pages k blocks) (inside : b' ∈ r.blocks) (same : b'.idstr = p.1.idstr) :
    (b', p.2) ∈ pages k r.blocks := by
  obtain ⟨block, aligned, lt⟩ := (mem_pages h).mp mem
  obtain ⟨c, found, name, length⟩ := mirrors.counterpart block
  obtain rfl := mirrors.own.eq_of_idstr found inside (name.trans same.symm)
  exact (mem_pages mirrors.own).mpr ⟨inside, aligned, length ▸ lt⟩

/-- What the destination has when it has loaded all that was sent. -/
structure Synced (k : Nat) (s : Source) (r : Receiver) : Prop where
  remembers : Remembers s r
  clean : ∀ p ∈ pages k s.blocks, isDirty k s p = false → ∀ b' ∈ r.blocks,
    b'.idstr = p.1.idstr → ∀ i < 2 ^ k, r.mem (b'.offset + p.2 + i) = s.mem (p.addr + i)

/-- A guest write makes its page dirty. -/
theorem Synced.write (h : RamBlocks k s.blocks) (synced : Synced k s r) (a : Nat) (byte : Byte) :
    Synced k { s with
      mem := Function.update s.mem a byte
      dirty := Function.update s.dirty (a / 2 ^ k) true } r := by
  refine ⟨synced.remembers, fun p mem clean b' inside same i lt => ?_⟩
  unfold isDirty at clean
  dsimp only at clean ⊢
  have other : p.addr / 2 ^ k ≠ a / 2 ^ k := by
    intro same
    rw [same, update_self] at clean
    cases clean
  have elsewhere : p.addr + i ≠ a := fun same =>
    other ((number_eq h mem).mpr ⟨by omega, by omega⟩).symm
  rw [update_of_ne other] at clean
  rw [update_of_ne elsewhere]
  exact synced.clean p mem clean b' inside same i lt

/-- A page that arrives makes the destination agree with the source about it. -/
theorem Synced.got (h : RamBlocks k s.blocks) (mirrors : Mirrors k s.blocks r)
    (synced : Synced k s r) (mem : p ∈ pages k s.blocks) (inside : b' ∈ r.blocks)
    (same : b'.idstr = p.1.idstr) : Synced k (s.sent k p) (r.got k b' s p) := by
  constructor
  · rintro b last
    cases last
    exact ⟨b', inside, same, rfl⟩
  intro q hq clean c hc name i lt
  rw [isDirty_sent h mem hq] at clean
  show writeBytes r.mem (b'.offset + p.2) (readPage k s.mem p.addr) (c.offset + q.2 + i) =
    s.mem (q.addr + i)
  rw [writeBytes_readPage]
  by_cases this : q = p
  · subst this
    obtain rfl := mirrors.own.eq_of_idstr hc inside (name.trans same.symm)
    rw [if_pos (by omega), Nat.add_sub_cancel_left]
  rw [if_neg this] at clean
  have pPage := mirrors.page h mem inside same
  have qPage := mirrors.page h hq hc name
  have apart : (b', p.2) ≠ (c, q.2) := by
    intro both
    obtain ⟨rfl, offset⟩ := Prod.mk.inj both
    exact this (Prod.ext (h.eq_of_idstr ((mem_pages h).mp hq).1 ((mem_pages h).mp mem).1
      (name.symm.trans same)) offset.symm)
  have := pages_apart mirrors.own pPage qPage apart
  dsimp only [Place.addr] at this
  rw [if_neg (by omega)]
  exact synced.clean q hq clean c hc name i lt

/-- The destination catches up with the pages that were sent. -/
theorem Sends.loads (wide : 6 ≤ k) (sends : Sends k s bytes t) (h : RamBlocks k s.blocks)
    (mirrors : Mirrors k s.blocks r) (spares : Spares k host r.blocks) (synced : Synced k s r) :
    ∃ n r', Synced k t r' ∧ r'.blocks = r.blocks ∧ ∀ rounds rest taken, ∃ taken',
      (ramLoad k host (rounds + n) r).run ⟨bytes ++ rest, taken, false⟩ =
        (ramLoad k host rounds r').run ⟨rest, taken', false⟩ := by
  induction sends generalizing r with
  | done s => exact ⟨0, r, synced, rfl, fun rounds rest taken => ⟨taken, rfl⟩⟩
  | @page s t p bytes mem sends ih =>
    obtain ⟨b', inside, same, -⟩ := mirrors.counterpart ((mem_pages h).mp mem).1
    obtain ⟨n, r', synced', keeps, loads⟩ :=
      ih (r := r.got k b' s p) h ⟨mirrors.own, mirrors.same⟩ spares
        (synced.got h mirrors mem inside same)
    refine ⟨n + 1, r', synced', keeps, fun rounds rest taken => ?_⟩
    obtain ⟨taken₁, first⟩ := ramLoad_page wide h mirrors spares synced.remembers mem inside same
      (rounds + n) (bytes ++ rest) taken
    obtain ⟨taken₂, others⟩ := loads rounds rest taken₁
    refine ⟨taken₂, ?_⟩
    rw [append_assoc, ← Nat.add_assoc, first, others]

/-! ## Sections -/

/-- `ram_load` accepts a section. -/
def Loads (k : Nat) (host : Option Nat) (r : Receiver) (bytes : List Byte) (r' : Receiver) : Prop :=
  ∃ least, ∀ rounds, least ≤ rounds → ∀ rest taken, ∃ taken',
    (ramLoad k host rounds r).run ⟨bytes ++ rest, taken, false⟩ =
      .ok ((0, r'), ⟨rest, taken', false⟩)

/-- The calls of `ram_load` accept all sections. -/
def LoadsAll (k : Nat) (host : Option Nat) (r : Receiver) (sections : List (List Byte))
    (r' : Receiver) : Prop :=
  ∃ least, ∀ rounds, least ≤ rounds → ∀ rest taken, ∃ taken',
    (ramLoadAll k host rounds sections.length r).run ⟨sections.flatten ++ rest, taken, false⟩ =
      .ok ((0, r'), ⟨rest, taken', false⟩)

theorem ramLoadAll_snoc {rounds n : Nat} {r₁ : Receiver} {a b c : Stream}
    (before : (ramLoadAll k host rounds n r).run a = .ok ((0, r₁), b))
    (next : (ramLoad k host rounds r₁).run b = .ok ((0, r₂), c)) :
    (ramLoadAll k host rounds (n + 1) r).run a = .ok ((0, r₂), c) := by
  induction n generalizing r a with
  | zero =>
    cases before
    rw [ramLoadAll, Reader.run_bind_ok next]
    rfl
  | succ n ih =>
    rw [ramLoadAll, Reader.run_bind] at before
    obtain ⟨⟨⟨ret, r₀⟩, d⟩, first, before⟩ := bind_ok_iff.mp before
    dsimp only at before
    rw [ramLoadAll, Reader.run_bind_ok first]
    dsimp only
    by_cases zero : ret = 0
    · rw [if_neg (not_not.mpr zero)] at before ⊢
      exact ih before
    · rw [if_pos zero] at before
      cases before
      exact absurd rfl zero

theorem LoadsAll.nil (k : Nat) (host : Option Nat) (r : Receiver) : LoadsAll k host r [] r :=
  ⟨0, fun _ _ _ taken => ⟨taken, rfl⟩⟩

theorem LoadsAll.snoc {sections : List (List Byte)} (before : LoadsAll k host r sections r')
    (next : Loads k host r' bytes r₂) : LoadsAll k host r (sections ++ [bytes]) r₂ := by
  obtain ⟨least, before⟩ := before
  obtain ⟨least', next⟩ := next
  refine ⟨max least least', fun rounds enough rest taken => ?_⟩
  obtain ⟨taken₁, first⟩ :=
    before rounds (Nat.le_trans (Nat.le_max_left ..) enough) (bytes ++ rest) taken
  obtain ⟨taken₂, second⟩ := next rounds (Nat.le_trans (Nat.le_max_right ..) enough) rest taken₁
  refine ⟨taken₂, ?_⟩
  rw [length_append, flatten_append, flatten_singleton, append_assoc]
  exact ramLoadAll_snoc first second

section
variable (wide : 6 ≤ k) (sends : Sends k s bytes t) (h : RamBlocks k s.blocks)
  (mirrors : Mirrors k s.blocks r) (spares : Spares k host r.blocks) (synced : Synced k s r)
include wide sends h mirrors spares synced

/-- Pages and the end of the section. -/
theorem Sends.loads_section :
    ∃ r', Synced k t r' ∧ r'.blocks = r.blocks ∧ Loads k host r (bytes ++ putBe64 flagEos) r' := by
  obtain ⟨n, r', synced', keeps, loads⟩ := sends.loads wide h mirrors spares synced
  refine ⟨r', synced', keeps, n + 1, fun rounds enough rest taken => ?_⟩
  obtain ⟨rounds, rfl⟩ := Nat.exists_eq_add_of_le' enough
  obtain ⟨taken', sent⟩ := loads (rounds + 1) (putBe64 flagEos ++ rest) taken
  refine ⟨taken' + 8, ?_⟩
  rw [append_assoc, ← Nat.add_assoc, Nat.add_right_comm, sent, ramLoad_eos wide]

/-- The list of blocks, pages and the end of the section. -/
theorem Sends.loads_first :
    ∃ r', Synced k t r' ∧ r'.blocks = r.blocks ∧
      Loads k host r (blockList s.blocks ++ (bytes ++ putBe64 flagEos)) r' := by
  obtain ⟨r', synced', keeps, least, loads⟩ := sends.loads_section wide h mirrors spares synced
  refine ⟨r', synced', keeps, max s.blocks.length least + 1, fun rounds enough rest taken => ?_⟩
  obtain ⟨rounds, rfl⟩ := Nat.exists_eq_add_one_of_ne_zero (Nat.ne_zero_of_lt enough)
  have enough := Nat.le_of_succ_le_succ enough
  obtain ⟨taken₁, accepted⟩ := ramLoad_blockList wide h mirrors
    (Nat.le_trans (Nat.le_max_left ..) enough) (bytes ++ putBe64 flagEos ++ rest) taken
  obtain ⟨taken₂, loaded⟩ := loads rounds (Nat.le_trans (Nat.le_max_right ..) enough) rest taken₁
  exact ⟨taken₂, by rw [append_assoc, accepted, loaded]⟩

end

end

/-! ## Runs -/

/-- The calls of `ram_save_live` between the first and the last. -/
def RamEvent.Between : RamEvent → Prop
  | .write .. => True
  | .save stage _ => stage = .part

/-- A destination `r` that loads what was sent so far has caught up with the source. -/
structure CatchesUp (k : Nat) (host : Option Nat) (blocks : List RAMBlock) (r : Receiver)
    (m : Migrating) : Prop where
  blocks : m.source.blocks = blocks
  cursor : Cursor k m.source
  loads : ∃ r', r'.blocks = r.blocks ∧ LoadsAll k host r m.sections r' ∧ Synced k m.source r'

/-- The same RAM, block by block. -/
def SameRam (blocks : List RAMBlock) (s : Source) (r : Receiver) : Prop :=
  ∀ b ∈ blocks, ∀ b' ∈ r.blocks, b'.idstr = b.idstr →
    ∀ o < b.length, r.mem (b'.offset + o) = s.mem (b.offset + o)

section
variable {k rounds : Nat} {blocks : List RAMBlock} {s : Source} {r : Receiver} {m : Migrating}
variable {host : Option Nat}

theorem Mirrors.of_blocks {r' : Receiver} (mirrors : Mirrors k blocks r)
    (same : r'.blocks = r.blocks) : Mirrors k blocks r' := by
  constructor
  · rw [same]
    exact mirrors.own
  · rw [same]
    exact mirrors.same

/-- Where no page is dirty the RAM is the same. -/
theorem Synced.sameRam (h : RamBlocks k s.blocks) (synced : Synced k s r)
    (clean : ∀ p ∈ pages k s.blocks, isDirty k s p = false) : SameRam s.blocks s r := by
  intro b mem b' inside same o lt
  have pos : 0 < 2 ^ k := Nat.two_pow_pos k
  have page : (b, o / 2 ^ k * 2 ^ k) ∈ pages k s.blocks :=
    (mem_pages h).mpr ⟨mem, Nat.dvd_mul_left .., Nat.lt_of_le_of_lt (Nat.div_mul_le_self ..) lt⟩
  have byte := synced.clean _ page (clean _ page) b' inside same (o % 2 ^ k) (Nat.mod_lt _ pos)
  unfold Place.addr at byte
  rwa [Nat.add_assoc, Nat.add_assoc, Nat.div_add_mod'] at byte

theorem Cursor.write (cursor : Cursor k s) (a : Nat) (byte : Byte) :
    Cursor k { s with
      mem := Function.update s.mem a byte
      dirty := Function.update s.dirty (a / 2 ^ k) true } := by
  unfold Cursor at cursor
  cases last : s.lastBlock with
  | some b =>
    rw [last] at cursor
    exact cursor
  | none =>
    rw [last] at cursor
    obtain ⟨zero, b, first, dirty⟩ := cursor
    refine ⟨zero, b, first, ?_⟩
    unfold isDirty at dirty ⊢
    dsimp only
    rw [update_apply, dirty, ite_self]

section
variable (wide : 6 ≤ k) (h : RamBlocks k blocks) (mirrors : Mirrors k blocks r)
  (spares : Spares k host r.blocks) (enough : (pages k blocks).length < rounds)
  (catches : CatchesUp k host blocks r m)
include wide h mirrors spares enough catches

/-- Between the first call and the last the destination keeps up. -/
theorem ramStep_catches {e : RamEvent}
    (between : e.Between) : ∃ m', ramStep k rounds m e = .ok m' ∧ CatchesUp k host blocks r m' := by
  obtain ⟨rfl, cursor, r', keeps, loaded, synced⟩ := catches
  cases e with
  | write a byte =>
    exact ⟨_, rfl, rfl, cursor.write a byte, r', keeps, loaded, synced.write h a byte⟩
  | save stage limit =>
    obtain rfl : stage = .part := between
    obtain ⟨bytes, t, saved, sends, cursor'⟩ := saveSome_spec limit h cursor (Nat.le_of_lt enough)
    obtain ⟨r₂, synced', keeps', loads⟩ :=
      sends.loads_section wide h (mirrors.of_blocks keeps) (keeps ▸ spares) synced
    refine ⟨⟨t, m.sections ++ [bytes ++ putBe64 flagEos]⟩, ?_, sends.keeps.1, cursor', r₂,
      keeps'.trans keeps, loaded.snoc loads, synced'⟩
    show (saveSome k rounds limit m.source >>= _) >>= _ = _
    rw [saved]
    rfl

/-- Stage 3 ends, and the destination has the RAM of the source then. -/
theorem ramStep_last (limit : Nat) :
    ∃ m' r', ramStep k rounds m (.save .end_ limit) = .ok m' ∧ r'.blocks = r.blocks ∧
      LoadsAll k host r m'.sections r' ∧ SameRam blocks m'.source r' := by
  obtain ⟨rfl, cursor, r', keeps, loaded, synced⟩ := catches
  obtain ⟨bytes, t, saved, sends, cursor'⟩ := saveSome_spec limit h cursor (Nat.le_of_lt enough)
  have same : t.blocks = m.source.blocks := sends.keeps.1
  rw [← same] at h enough
  have few : (pages k t.blocks).countP (isDirty k t) < rounds := countP_le_length.trans_lt enough
  obtain ⟨more, u, savedAll, sendsAll, clean⟩ := saveAll_spec h cursor' (Nat.le_of_lt enough) few
  rw [same] at h
  obtain ⟨r₂, synced', keeps', loads⟩ :=
    (sends.trans sendsAll).loads_section wide h (mirrors.of_blocks keeps) (keeps ▸ spares) synced
  have final : u.blocks = m.source.blocks := sendsAll.keeps.1.trans same
  refine ⟨⟨u, m.sections ++ [bytes ++ more ++ putBe64 flagEos]⟩, r₂, ?_, keeps'.trans keeps,
    loaded.snoc loads, ?_⟩
  · show (saveSome k rounds limit m.source >>= fun saved =>
      saveAll k rounds rounds saved.2 >>= _) >>= _ = _
    rw [saved, ok_bind]
    dsimp only
    rw [savedAll, append_assoc]
    rfl
  · rw [← final] at h ⊢
    exact synced'.sameRam h clean

end

theorem sortRamList_perm (blocks : List RAMBlock) : (sortRamList blocks).Perm blocks :=
  mergeSort_perm ..

/-- Stage 1 makes every page dirty. -/
theorem isDirty_startSaving (h : RamBlocks k s.blocks) {p : Place} (mem : p ∈ pages k s.blocks) :
    isDirty k (startSaving k s) p = true := by
  have pos : 0 < 2 ^ k := Nat.two_pow_pos k
  obtain ⟨block, ⟨i, place⟩, lt⟩ := (mem_pages h).mp mem
  have inside : p.addr / 2 ^ k ∈ pageNumbers k p.1 := by
    refine mem_map.mpr ⟨i, mem_range.mpr ?_, ?_⟩
    · rw [Nat.lt_div_iff_mul_lt pos, Nat.mul_comm]
      omega
    · rw [Place.addr, place, Nat.mul_comm i]
  unfold isDirty startSaving
  rw [Bool.or_eq_true, any_eq_true]
  exact .inr ⟨p.1, block, contains_iff_mem.mpr inside⟩

/-- After the first call the destination has caught up, from any RAM it had. -/
theorem ramStep_first (wide : 6 ≤ k) (h : RamBlocks k s.blocks) (mirrors : Mirrors k s.blocks r)
    (spares : Spares k host r.blocks)
    (enough : (pages k (sortRamList s.blocks)).length < rounds) (limit : Nat) :
    ∃ m, ramStep k rounds ⟨s, []⟩ (.save .start limit) = .ok m ∧
      CatchesUp k host (sortRamList s.blocks) r m := by
  have perm := sortRamList_perm s.blocks
  have sorted : RamBlocks k (startSaving k s).blocks := h.perm perm.symm
  have mirrors' : Mirrors k (startSaving k s).blocks r :=
    ⟨mirrors.own, (perm.map _).trans mirrors.same⟩
  have dirty : ∀ p ∈ pages k (startSaving k s).blocks, isDirty k (startSaving k s) p = true := by
    intro p mem
    obtain ⟨block, place⟩ := (mem_pages sorted).mp mem
    exact isDirty_startSaving h ((mem_pages h).mpr ⟨perm.mem_iff.mp block, place⟩)
  have cursor : Cursor k (startSaving k s) := by
    obtain ⟨b, others, split⟩ := exists_cons_of_ne_nil sorted.nonempty
    have first : (startSaving k s).blocks.head? = some b := by rw [split, head?_cons]
    have page := pages_head sorted fun _ mem => mem
    rw [first] at page
    exact ⟨rfl, b, first, dirty _ (mem_of_head? page)⟩
  have synced : Synced k (startSaving k s) r := by
    refine ⟨(fun b last => nomatch last), fun p mem clean => ?_⟩
    rw [dirty p mem] at clean
    cases clean
  obtain ⟨bytes, t, saved, sends, cursor'⟩ :=
    saveSome_spec limit sorted cursor (Nat.le_of_lt enough)
  obtain ⟨r', synced', keeps, loads⟩ := sends.loads_first wide sorted mirrors' spares synced
  refine ⟨⟨t, [blockList (startSaving k s).blocks ++ (bytes ++ putBe64 flagEos)]⟩, ?_,
    sends.keeps.1, cursor', r', keeps, (LoadsAll.nil k host r).snoc loads, synced'⟩
  show (saveSome k rounds limit (startSaving k s) >>= _) >>= _ = _
  rw [saved]
  rfl

/-- However guest writes and calls of `ram_save_live` follow each other, stage 3 ends, and the
destination that loads the stream has the RAM of the source, if no page of zeros shares a host page
with another page of its block. -/
theorem ram_migrated (wide : 6 ≤ k) (h : RamBlocks k s.blocks) (mirrors : Mirrors k s.blocks r)
    (spares : Spares k host r.blocks) (enough : (pages k s.blocks).length < rounds)
    (first last : Nat) {events : List RamEvent} (between : ∀ e ∈ events, e.Between) :
    ∃ m r', run (ramStep k rounds) ⟨s, []⟩
        (.save .start first :: events ++ [.save .end_ last]) = .ok m ∧
      r'.blocks = r.blocks ∧ LoadsAll k host r m.sections r' ∧ SameRam s.blocks m.source r' := by
  have perm := sortRamList_perm s.blocks
  have sorted : RamBlocks k (sortRamList s.blocks) := h.perm perm.symm
  have mirrors' : Mirrors k (sortRamList s.blocks) r :=
    ⟨mirrors.own, (perm.map _).trans mirrors.same⟩
  have many : (pages k (sortRamList s.blocks)).length < rounds := by
    rw [pages, (perm.flatMap_right _).length_eq]
    exact enough
  obtain ⟨m, started, catches⟩ := ramStep_first wide h mirrors spares many first
  suffices rest : ∃ m' r', run (ramStep k rounds) m (events ++ [.save .end_ last]) = .ok m' ∧
      r'.blocks = r.blocks ∧ LoadsAll k host r m'.sections r' ∧
      SameRam (sortRamList s.blocks) m'.source r' by
    obtain ⟨m', r', ran, keeps, loads, same⟩ := rest
    exact ⟨m', r', run_cons_ok.mpr ⟨m, started, ran⟩, keeps, loads,
      fun b mem => same b (perm.mem_iff.mpr mem)⟩
  clear started
  induction events generalizing m with
  | nil =>
    obtain ⟨m', r', ended, final⟩ := ramStep_last wide sorted mirrors' spares many catches last
    exact ⟨m', r', run_cons_ok.mpr ⟨m', ended, rfl⟩, final⟩
  | cons e events ih =>
    obtain ⟨m', next, catches'⟩ :=
      ramStep_catches wide sorted mirrors' spares many catches (between e mem_cons_self)
    obtain ⟨m'', r', ran, final⟩ := ih (fun e mem => between e (.tail _ mem)) m' catches'
    exact ⟨m'', r', run_cons_ok.mpr ⟨m', next, ran⟩, final⟩

end

/-- Two blocks of one and two pages, in the other order and at other addresses on the other side. -/
def ram (offset : Nat) : RAMBlock := ⟨⟨[0x72], by decide⟩, offset, 128⟩

def rom (offset : Nat) : RAMBlock := ⟨⟨[0x6f], by decide⟩, offset, 64⟩

def smallSource : Source := ⟨[ram 64, rom 0], fun a => .ofNat 8 a, fun _ => false, none, 0⟩

def smallReceiver : Receiver := ⟨[rom 256, ram 0], fun _ => 0, none⟩

theorem ram_migrated_small :
    (RamBlocks 6 smallSource.blocks ∧ Mirrors 6 smallSource.blocks smallReceiver ∧
      Spares 6 (some 6) smallReceiver.blocks) ∧
    ∃ m r', run (ramStep 6 4) ⟨smallSource, []⟩
        (.save .start 1 :: [.write 70 1, .save .part 1, .write 70 2, .write 3 9] ++
          [.save .end_ 0]) = .ok m ∧
      r'.blocks = smallReceiver.blocks ∧ LoadsAll 6 (some 6) smallReceiver m.sections r' ∧
      SameRam smallSource.blocks m.source r' := by
  have source : RamBlocks 6 smallSource.blocks :=
    ⟨by decide, by decide, by decide, by decide, by decide⟩
  have mirrors : Mirrors 6 smallSource.blocks smallReceiver :=
    ⟨⟨by decide, by decide, by decide, by decide, by decide⟩, by decide⟩
  have spares : Spares 6 (some 6) smallReceiver.blocks := fun j is => .inl (Option.some.inj is).ge
  exact ⟨⟨source, mirrors, spares⟩, ram_migrated (by decide) source mirrors spares (by decide) 1 0
    (by simp [RamEvent.Between])⟩

/-- Four pages of 1 KiB in one host page of 4 KiB, the first of them zero. -/
def sharedPage : RAMBlock := ⟨⟨[0x72], by decide⟩, 0, 4096⟩

def sharedSource : Source :=
  ⟨[sharedPage], fun a => if a < 1024 then 0 else 0x11, fun _ => false, none, 0⟩

/-- The guest writes a zero into the zero page, which is sent again: the destination loses the
other three. -/
theorem zero_page_wipes_neighbours :
    ∃ m r' rest, run (ramStep 10 6) ⟨sharedSource, []⟩
        [.save .start 4, .write 0 0, .save .end_ 0] = .ok m ∧
      (ramLoadAll 10 (some 12) 8 2 ⟨[sharedPage], fun _ => 0, none⟩).run
        ⟨m.sections.flatten, 0, false⟩ = .ok ((0, r'), rest) ∧
      ¬SameRam sharedSource.blocks m.source r' := by
  have observed : (run (ramStep 10 6) ⟨sharedSource, []⟩
      [.save .start 4, .write 0 0, .save .end_ 0] >>= fun m =>
      (ramLoadAll 10 (some 12) 8 2 ⟨[sharedPage], fun _ => 0, none⟩).run
        ⟨m.sections.flatten, 0, false⟩ >>= fun l => .ok (m, l)).toOption.map (fun (m, l) =>
        (l.1.1, l.1.2.blocks, l.1.2.mem 1024, m.source.mem 1024)) =
      some (0, [sharedPage], 0, 0x11) := by
    decide +kernel
  obtain ⟨⟨m, l⟩, done, seen⟩ := exists_of_observed observed
  obtain ⟨m, saved, done⟩ := bind_ok_iff.mp done
  obtain ⟨⟨⟨ret, r'⟩, rest⟩, loaded, eq⟩ := bind_ok_iff.mp done
  cases eq
  obtain ⟨rfl, blocks, here, there⟩ : ret = 0 ∧ r'.blocks = [sharedPage] ∧ r'.mem 1024 = 0 ∧
      m.source.mem 1024 = 0x11 := by simpa using seen
  refine ⟨m, r', rest, saved, loaded, fun same => ?_⟩
  have byte := same sharedPage (by decide) sharedPage (by simp [blocks]) rfl 1024 (by decide)
  rw [show sharedPage.offset + 1024 = 1024 from rfl, here, there] at byte
  exact absurd byte (by decide)

end QemuStm32.Ram
