import QemuStm32.Exec.PhysPages

/-!
# Pages and subpages

* `Refines`: the tables send every access where it is to go;
* `Refines.dispatch`: `cpu_physical_memory_rw` follows them;
* `registerPage_spec`: one round of `cpu_register_physical_memory_log` changes the part of a page
  it is for.
-/

namespace QemuStm32.Exec

open Runs Function List

section
variable {t : Target} {used : Nat → Bool} {s s' : PhysState} {own : Nat → Access}
variable {c : Registration} {page physOffset regionOffset : Nat}

/-! ## Entries of the page table -/

theorem subpage_tag (index : Nat) : index * 8 ||| ioMemSubpage = index * 8 + 2 := by
  rw [Nat.mul_comm]
  exact (Nat.two_pow_add_eq_or_of_lt (show 2 < 2 ^ 3 by decide) index).symm

theorem testBit_one (n : Nat) : n.testBit 1 = decide (n / 2 % 2 = 1) := by
  rw [Nat.testBit_succ, Nat.testBit_zero]

/-- An entry that a call may name: it is in use, and none of those that are fixed. -/
structure Device (t : Target) (used : Nat → Bool) (index : Nat) : Prop where
  inUse : used index = true
  device : 2 < index
  inside : index < t.entries

/-- What the bytes of a subpage reach. -/
def Subpage.reach (t : Target) (mmio : Subpage) (o : Nat) : Access :=
  handler (mmio.subIoIndex o) ((o + mmio.regionOffset o) % t.space)

/-- What `phys_offset` and `region_offset` say about the bytes of a page. -/
inductive Serves (t : Target) (used : Nat → Bool) :
    (physOffset regionOffset : Nat) → (Nat → Access) → Prop
  | unassigned (regionOffset : Nat) :
      Serves t used ioMemUnassigned regionOffset fun _ => .unassigned
  | ram (physOffset regionOffset : Nat) (memory : physOffset % t.pageSize = ioMemRam) :
      Serves t used physOffset regionOffset fun o => .ram (physOffset + o)
  | device (index regionOffset : Nat) (device : Device t used index) :
      Serves t used (index * 8) regionOffset fun o => .io index ((o + regionOffset) % t.space)

/-- What is on a page: one entry for all its bytes, or a subpage. -/
inductive Shows (t : Target) (used : Nat → Bool) (s : PhysState) (page : Nat) :
    (Nat → Access) → Prop
  | empty (here : s.pages page = none) : Shows t used s page fun _ => .unassigned
  | whole (physOffset regionOffset : Nat) (reach : Nat → Access)
      (here : s.pages page = some ⟨physOffset, regionOffset⟩)
      (serves : Serves t used physOffset regionOffset reach) : Shows t used s page reach
  | subpage (index : Nat) (mmio : Subpage)
      (here : s.pages page = some ⟨index * 8 ||| ioMemSubpage, 0⟩)
      (new : used index = false) (inside : index < t.entries)
      (table : s.subpages index = some mmio) : Shows t used s page (mmio.reach t)

/-- A page with the subpage of an entry. -/
def SubpageAt (s : PhysState) (page index : Nat) : Prop :=
  s.pages page = some ⟨index * 8 ||| ioMemSubpage, 0⟩

/-- The tables are good, and send every access where it is to go. -/
structure Refines (t : Target) (used : Nat → Bool) (s : PhysState) (own : Nat → Access) :
    Prop where
  shows : ∀ page, ∃ reach, Shows t used s page reach ∧
    ∀ o < t.pageSize, own (page * t.pageSize + o) = reach o
  devices : ∀ index, used index = true → s.ioMemUsed index = true ∧ s.subpages index = none
  inUse : ∀ page index, SubpageAt s page index → s.ioMemUsed index = true
  apart : ∀ page page' index, SubpageAt s page index → SubpageAt s page' index → page = page'

variable {i pd a index o : Nat} {p : PhysPageDesc} {mmio : Subpage}

theorem SubpageAt.unique {j : Nat} (h : SubpageAt s page i) (h' : SubpageAt s page j) : i = j := by
  have same := Option.some.inj (h.symm.trans h')
  rw [subpage_tag, subpage_tag, PhysPageDesc.mk.injEq] at same
  omega

/-- The address that the I/O functions of a page get. -/
def pageAddr1 (t : Target) (s : PhysState) (a : Nat) : Nat :=
  match s.pages (a / t.pageSize) with
  | none => a
  | some p => (a % t.pageSize + p.regionOffset) % t.space

theorem not_isMemory (io : ioMemRom < pd % t.pageSize) (even : pd % 2 = 0) :
    isMemory t pd = false := by
  unfold isMemory
  rw [Nat.testBit_zero, decide_eq_false (by omega), decide_eq_false (by omega)]
  rfl

theorem dispatch_io (isWrite : Bool) (here : physOffsetOf s.pages (a / t.pageSize) = pd)
    (io : ioMemRom < pd % t.pageSize) (even : pd % 2 = 0) :
    dispatch t isWrite s a = ioAccess t s (pd / 8 % t.entries) (pageAddr1 t s a) := by
  have notRam : pd % t.pageSize ≠ ioMemRam := Nat.ne_of_gt (Nat.lt_trans (by decide) io)
  unfold dispatch
  dsimp only
  rw [here, not_isMemory io even, decide_eq_false notRam, ite_self]
  rfl

theorem physOffsetOf_some {find : PhysMap} {page : Nat} (here : find page = some p) :
    physOffsetOf find page = p.physOffset := by
  unfold physOffsetOf
  rw [here]

theorem pageAddr1_some (here : s.pages (a / t.pageSize) = some p) :
    pageAddr1 t s a = (a % t.pageSize + p.regionOffset) % t.space := by
  unfold pageAddr1
  rw [here]

section
variable (wide : 5 ≤ t.pageBits)
include wide

/-- Pages are large enough for the entries that are fixed. -/
theorem Target.entries_mul : t.entries * 8 = t.pageSize :=
  Nat.div_mul_cancel (Nat.pow_dvd_pow 2 (show 3 ≤ t.pageBits by omega))

theorem Target.pageSize_ge : 32 ≤ t.pageSize :=
  Nat.pow_le_pow_right (show 0 < 2 by decide) wide

theorem unassigned_mod : ioMemUnassigned % t.pageSize = ioMemUnassigned :=
  Nat.mod_eq_of_lt (Nat.lt_of_lt_of_le (by decide) (Target.pageSize_ge wide))

theorem unassigned_entry : ioMemUnassigned / 8 % t.entries = 2 := by
  have eight := Target.entries_mul wide
  have large := Target.pageSize_ge wide
  exact Nat.mod_eq_of_lt (show 2 < t.entries by omega)

theorem Device.offset (device : Device t used index) :
    ioMemUnassigned < index * 8 % t.pageSize := by
  have eight := Target.entries_mul wide
  have inside := device.inside
  have three := device.device
  rw [Nat.mod_eq_of_lt (by omega)]
  exact show 16 < index * 8 by omega

theorem Refines.dispatch (reserved : ∀ i ≤ 2, used i = true) (refines : Refines t used s own)
    (isWrite : Bool) (a : Nat) : dispatch t isWrite s a = own a := by
  have eight := Target.entries_mul wide
  have small := Nat.mod_lt a t.pageSize_pos
  obtain ⟨reach, shows, owns⟩ := refines.shows (a / t.pageSize)
  have owned : own a = reach (a % t.pageSize) := by rw [← owns _ small, Nat.div_add_mod']
  have none (empty : physOffsetOf s.pages (a / t.pageSize) = ioMemUnassigned) :
      Exec.dispatch t isWrite s a = .unassigned := by
    rw [dispatch_io isWrite empty (by rw [unassigned_mod wide]; decide) (by decide),
      unassigned_entry wide, ioAccess, (refines.devices 2 (reserved 2 le_rfl)).2]
    rfl
  rw [owned]
  cases shows with
  | empty here => exact none (by rw [physOffsetOf, here])
  | whole physOffset regionOffset _ here serves =>
    have pd := physOffsetOf_some here
    cases serves with
    | unassigned => exact none pd
    | ram _ _ memory =>
      have isMem : isMemory t physOffset = true := by
        unfold isMemory
        rw [memory]
        rfl
      unfold Exec.dispatch
      rw [pd]
      dsimp only
      rw [isMem, memory, decide_eq_true rfl, ite_self, if_pos rfl,
        Nat.div_mul_cancel (Nat.dvd_of_mod_eq_zero memory)]
    | device index _ device =>
      rw [dispatch_io isWrite pd (Nat.lt_trans (by decide) (device.offset wide))
        (show index * 8 % 2 = 0 by omega), pageAddr1_some here, Nat.mul_div_cancel _ (by decide),
        Nat.mod_eq_of_lt device.inside, ioAccess, (refines.devices index device.inUse).2]
      exact if_neg (Nat.ne_of_gt device.device)
  | subpage index mmio here new inside table =>
    have three : 2 < index := by
      by_contra le
      rw [reserved index (by omega)] at new
      cases new
    rw [subpage_tag] at here
    have inPage : a % t.pageSize < t.space := small.trans_le (Nat.le_of_dvd t.space_pos t.page_dvd)
    have fits : index * 8 + 2 < t.pageSize := by omega
    rw [dispatch_io isWrite (physOffsetOf_some here)
      (show 8 < (index * 8 + 2) % t.pageSize by rw [Nat.mod_eq_of_lt fits]; omega)
      (show (index * 8 + 2) % 2 = 0 by omega), pageAddr1_some here]
    rw [show (index * 8 + 2) / 8 = index by omega, Nat.mod_eq_of_lt inside, Nat.add_zero,
      Nat.mod_eq_of_lt inPage, ioAccess, table]
    rw [Nat.mod_mod]
    rfl

/-! ## What a call says about a page -/

variable {reach : Nat → Access}

section
variable (serves : Serves t used physOffset regionOffset reach)
include serves

/-- The region offset matters for I/O functions only. -/
theorem Serves.region {other : Nat}
    (same : physOffset ≠ ioMemUnassigned → physOffset % t.pageSize ≠ ioMemRam →
      other = regionOffset) : Serves t used physOffset other reach := by
  cases serves with
  | unassigned => exact .unassigned other
  | ram _ _ memory => exact .ram _ _ memory
  | device index _ device =>
    have offset := device.offset wide
    rw [same (Nat.ne_of_gt (offset.trans_le (Nat.mod_le ..)))
      (Nat.ne_of_gt (Nat.lt_trans (by decide) offset))]
    exact .device index _ device

/-- The offsets of I/O functions. -/
theorem Serves.io (io : physOffset % t.pageSize ≠ ioMemRam) :
    ioMemRom < physOffset % t.pageSize ∧ physOffset % 2 = 0 := by
  cases serves with
  | unassigned =>
    rw [unassigned_mod wide]
    decide
  | ram _ _ memory => exact absurd memory io
  | device index _ device =>
    exact ⟨Nat.lt_trans (by decide) (device.offset wide), by omega⟩

/-- The offsets that calls name have no tag. -/
theorem Serves.untagged : physOffset % 8 = 0 := by
  cases serves with
  | unassigned => rfl
  | ram _ _ memory =>
    have divides : 8 ∣ t.pageSize := Nat.pow_dvd_pow 2 (show 3 ≤ t.pageBits by omega)
    exact Nat.mod_eq_zero_of_dvd (divides.trans (Nat.dvd_of_mod_eq_zero memory))
  | device index => exact Nat.mul_mod_left ..

theorem subpageRegister_reach {lo hi : Nat}
    (io : physOffset % t.pageSize ≠ ioMemRam) (le : lo ≤ hi) (lt : hi < t.pageSize) (o : Nat) :
    (subpageRegister t mmio lo hi physOffset regionOffset).reach t o =
      if lo ≤ o ∧ o ≤ hi then reach o else mmio.reach t o := by
  unfold subpageRegister Subpage.reach
  rw [if_neg (by omega), if_neg io]
  dsimp only
  by_cases inside : lo ≤ o ∧ o ≤ hi
  · rw [if_pos inside, if_pos inside, if_pos inside]
    cases serves with
    | unassigned =>
      rw [unassigned_entry wide]
      rfl
    | ram _ _ memory => exact absurd memory io
    | device index _ device =>
      rw [Nat.mul_div_cancel _ (by decide), Nat.mod_eq_of_lt device.inside]
      exact if_neg (Nat.ne_of_gt device.device)
  · rw [if_neg inside, if_neg inside, if_neg inside]

end

/-- Accesses to a page that is not assigned. -/
theorem Shows.unassigned (shows : Shows t used s page reach)
    (none : physOffsetOf s.pages page = ioMemUnassigned) (o : Nat) : reach o = .unassigned := by
  cases shows with
  | empty _ => rfl
  | whole physOffset _ _ here serves =>
    rw [physOffsetOf_some here] at none
    subst none
    generalize eq : ioMemUnassigned = pd at serves
    cases serves with
    | unassigned => rfl
    | ram _ _ memory =>
      rw [← eq, unassigned_mod wide] at memory
      cases memory
    | device index _ device =>
      exact absurd eq (Nat.ne_of_lt ((device.offset wide).trans_le (Nat.mod_le ..)))
  | subpage index _ here =>
    rw [physOffsetOf_some here, subpage_tag] at none
    exact absurd none (show index * 8 + 2 ≠ 16 by omega)

end

/-! ## Changes of one page -/

/-- Accesses to the bytes of a page in the range of a call go where the call sends them. -/
def Registration.paint (t : Target) (c : Registration) (page : Nat) (own : Nat → Access) :
    Nat → Access := fun a =>
  if a / t.pageSize = page ∧ c.covers a = true then c.reaches t a else own a

theorem page_add_div (small : o < t.pageSize) : (page * t.pageSize + o) / t.pageSize = page := by
  rw [Nat.mul_comm, Nat.mul_add_div t.pageSize_pos, Nat.div_eq_of_lt small, Nat.add_zero]

theorem paint_same (small : o < t.pageSize) :
    c.paint t page own (page * t.pageSize + o) =
      if c.covers (page * t.pageSize + o) = true then c.reaches t (page * t.pageSize + o)
      else own (page * t.pageSize + o) := by
  unfold Registration.paint
  simp only [page_add_div small, true_and]

theorem paint_other {other : Nat} (ne : other ≠ page) (small : o < t.pageSize) :
    c.paint t page own (other * t.pageSize + o) = own (other * t.pageSize + o) := by
  unfold Registration.paint
  rw [page_add_div small]
  exact if_neg fun both => ne both.1

theorem Shows.other {reach : Nat → Access} (shows : Shows t used s page reach)
    (same : s'.pages page = s.pages page)
    (tables : ∀ index, SubpageAt s page index → s'.subpages index = s.subpages index) :
    Shows t used s' page reach := by
  cases shows with
  | empty here => exact .empty (same.trans here)
  | whole _ _ _ here serves => exact .whole _ _ _ (same.trans here) serves
  | subpage index mmio here new inside table =>
    exact .subpage index mmio (same.trans here) new inside ((tables index here).trans table)

/-- A page changes, and with it only the entry of its own subpage. -/
theorem Refines.change (refines : Refines t used s own) {reach : Nat → Access}
    (others : ∀ page' ≠ page, s'.pages page' = s.pages page')
    (tables : ∀ index, used index = true ∨ (∃ page' ≠ page, SubpageAt s page' index) →
      s'.ioMemUsed index = s.ioMemUsed index ∧ s'.subpages index = s.subpages index)
    (shows : Shows t used s' page reach)
    (reaches : ∀ o < t.pageSize, c.paint t page own (page * t.pageSize + o) = reach o)
    (tag : ∀ index, SubpageAt s' page index → s'.ioMemUsed index = true ∧
      ∀ page' ≠ page, ¬SubpageAt s page' index) : Refines t used s' (c.paint t page own) := by
  have kept : ∀ page' ≠ page, ∀ index, SubpageAt s' page' index → SubpageAt s page' index :=
    fun page' ne index tagged => (others page' ne).symm.trans tagged
  refine ⟨fun page' => ?_, fun index device => ?_, fun page' index tagged => ?_,
    fun page' page'' index tagged tagged' => ?_⟩
  · by_cases this : page' = page
    · subst this
      exact ⟨reach, shows, reaches⟩
    · obtain ⟨reach', shows', owns⟩ := refines.shows page'
      refine ⟨reach', shows'.other (others page' this) fun index tagged => ?_, fun o small => ?_⟩
      · exact (tables index (.inr ⟨page', this, tagged⟩)).2
      · rw [paint_other this small, owns o small]
  · rw [(tables index (.inl device)).1, (tables index (.inl device)).2]
    exact refines.devices index device
  · by_cases this : page' = page
    · exact (tag index (this ▸ tagged)).1
    · have before := kept page' this index tagged
      rw [(tables index (.inr ⟨page', this, before⟩)).1]
      exact refines.inUse page' index before
  · by_cases this : page' = page
    · by_cases that : page'' = page
      · exact this.trans that.symm
      · exact absurd (kept page'' that index tagged') ((tag index (this ▸ tagged)).2 page'' that)
    · by_cases that : page'' = page
      · exact absurd (kept page' this index tagged) ((tag index (that ▸ tagged')).2 page' this)
      · exact refines.apart page' page'' index (kept page' this index tagged)
          (kept page'' that index tagged')

theorem getFreeIoMemIdx_some (found : getFreeIoMemIdx t s = some i) :
    i < t.entries ∧ s.ioMemUsed i = false := by
  have free := find?_some found
  rw [Bool.not_eq_true'] at free
  exact ⟨mem_range.mp (mem_of_find?_eq_some found), free⟩

/-! ## One round -/

/-- The entries of the table of I/O functions that are left. -/
def free (t : Target) (s : PhysState) : Nat :=
  (List.range t.entries).countP fun i => !s.ioMemUsed i

/-- Whether a page needs a new subpage for its part. -/
def needsNew (t : Target) (s : PhysState) (c : Registration) (addr : Nat) : Bool :=
  (checkSubpage t c addr).2.2 && !(physOffsetOf s.pages (addr / t.pageSize)).testBit 1

theorem free_update (found : getFreeIoMemIdx t s = some i) {pages : PhysMap}
    {tables : Nat → Option Subpage} :
    free t ⟨pages, Function.update s.ioMemUsed i true, tables⟩ + 1 = free t s := by
  obtain ⟨inside, unused⟩ := getFreeIoMemIdx_some found
  obtain ⟨l, r, split⟩ := append_of_mem (mem_range.mpr inside)
  have nodup : (l ++ i :: r).Nodup := split ▸ nodup_range
  rw [nodup_append, nodup_cons] at nodup
  have same : ∀ j, j ≠ i → (!update s.ioMemUsed i true j) = !s.ioMemUsed j :=
    fun j ne => by rw [update_of_ne ne]
  have left : (l.countP fun j => !update s.ioMemUsed i true j) =
      l.countP fun j => !s.ioMemUsed j :=
    countP_congr fun j mem => by
      rw [same j (nodup.2.2 j mem i mem_cons_self)]
  have right : (r.countP fun j => !update s.ioMemUsed i true j) =
      r.countP fun j => !s.ioMemUsed j :=
    countP_congr fun j mem => by rw [same j fun e => nodup.2.1.1 (e ▸ mem)]
  unfold free
  rw [split, countP_append, countP_append, countP_cons_of_neg (by simp),
    countP_cons_of_pos (by simp [unused]), left, right]
  omega

theorem exists_free (left : 0 < free t s) : ∃ i, getFreeIoMemIdx t s = some i := by
  obtain ⟨i, inside, free⟩ := countP_pos_iff.mp left
  cases found : getFreeIoMemIdx t s with
  | none => exact absurd free (find?_eq_none.mp found i inside)
  | some j => exact ⟨j, rfl⟩

/-- The state after the round of a call for a page. -/
structure Round (t : Target) (used : Nat → Bool) (own : Nat → Access) (c : Registration)
    (page : Nat) (fresh : Bool) (s s' : PhysState) : Prop where
  refines : Refines t used s' (c.paint t page own)
  others : ∀ page', page' ≠ page → s'.pages page' = s.pages page'
  left : free t s' + fresh.toNat = free t s

/-- The part of a page that is in the range of a call. -/
structure Part (t : Target) (c : Registration) (page lo hi : Nat) : Prop where
  le : lo ≤ hi
  lt : hi < t.pageSize
  covers : ∀ o < t.pageSize, c.covers (page * t.pageSize + o) = true ↔ lo ≤ o ∧ o ≤ hi

theorem Part.paint {lo hi : Nat} (part : Part t c page lo hi) (small : o < t.pageSize) :
    c.paint t page own (page * t.pageSize + o) =
      if lo ≤ o ∧ o ≤ hi then c.reaches t (page * t.pageSize + o)
      else own (page * t.pageSize + o) := by
  rw [paint_same small]
  simp only [part.covers o small]

section
variable {lo hi : Nat} (wide : 5 ≤ t.pageBits) (refines : Refines t used s own)
  (serves : Serves t used physOffset regionOffset fun o => c.reaches t (page * t.pageSize + o))
include wide refines serves

/-- A page that gets one entry for all its bytes. -/
theorem Refines.setPage (part : Part t c page 0 (t.pageSize - 1)) :
    Round t used own c page false s
      { s with pages := Function.update s.pages page (some ⟨physOffset, regionOffset⟩) } := by
  have here : update s.pages page (some ⟨physOffset, regionOffset⟩) page =
    some ⟨physOffset, regionOffset⟩ := update_self ..
  refine ⟨refines.change (fun _ ne => update_of_ne ne ..) (fun _ _ => ⟨rfl, rfl⟩)
    (.whole _ _ _ here serves) (fun o small => ?_) fun index tagged => ?_,
    fun _ ne => update_of_ne ne .., rfl⟩
  · rw [part.paint small, if_pos ⟨Nat.zero_le o, by omega⟩]
  · have tag := Option.some.inj (here.symm.trans tagged)
    rw [subpage_tag, PhysPageDesc.mk.injEq] at tag
    have := serves.untagged wide
    omega

variable (io : physOffset % t.pageSize ≠ ioMemRam) (part : Part t c page lo hi)
include io part

/-- A page that gets a subpage, with what was on the page before. -/
theorem Refines.newSubpage {origMemory origOffset : Nat} {old : Nat → Access}
    (before : Serves t used origMemory origOffset old) (notRam : origMemory % t.pageSize ≠ ioMemRam)
    (owns : ∀ o < t.pageSize, own (page * t.pageSize + o) = old o) (left : 0 < free t s) :
    Round t used own c page true s (subpageInit t page origMemory origOffset
      (fun mmio => subpageRegister t mmio lo hi physOffset regionOffset) s) := by
  obtain ⟨i, found⟩ := exists_free left
  obtain ⟨inside, free⟩ := getFreeIoMemIdx_some found
  have fresh : ∀ page', ¬SubpageAt s page' i := by
    intro page' tagged
    have := refines.inUse page' i tagged
    cases free.symm.trans this
  have notDevice : used i = false := by
    by_contra device
    have := (refines.devices i (Bool.eq_true_of_not_eq_false device)).1
    cases free.symm.trans this
  unfold subpageInit
  rw [found]
  have here : ∀ mmio, SubpageAt
      { pages := update s.pages page (some ⟨i * 8 ||| ioMemSubpage, 0⟩)
        ioMemUsed := update s.ioMemUsed i true
        subpages := update s.subpages i (some mmio) } page i :=
    fun _ => update_self ..
  refine ⟨refines.change (fun _ ne => update_of_ne ne ..) (fun index kept => ?_)
    (.subpage i _ (here _) notDevice inside (update_self ..)) (fun o small => ?_)
    fun index tagged => ?_, fun _ ne => update_of_ne ne .., free_update found⟩
  · have ne : index ≠ i := by
      rintro rfl
      obtain device | ⟨page', _, tagged⟩ := kept
      · exact Bool.false_ne_true (notDevice.symm.trans device)
      · exact fresh page' tagged
    exact ⟨update_of_ne ne .., update_of_ne ne ..⟩
  · have whole : 0 ≤ o ∧ o ≤ t.pageSize - 1 := by omega
    rw [subpageRegister_reach wide serves io part.le part.lt, subpageRegister_reach wide before
      notRam (Nat.zero_le _) (Nat.sub_lt t.pageSize_pos Nat.one_pos), part.paint small,
      owns o small, if_pos whole]
  · obtain rfl := tagged.unique (here _)
    exact ⟨update_self .., fun page' _ => fresh page'⟩

/-- A subpage that gets new entries. -/
theorem Refines.changeSubpage (here : SubpageAt s page index) (notDevice : used index = false)
    (inside : index < t.entries)
    (owns : ∀ o < t.pageSize, own (page * t.pageSize + o) = mmio.reach t o) :
    Round t used own c page false s
      { s with
        subpages := Function.update s.subpages index
          (some (subpageRegister t mmio lo hi physOffset regionOffset))
        pages := Function.update s.pages page (some ⟨index * 8 ||| ioMemSubpage, 0⟩) } := by
  refine ⟨refines.change (fun _ ne => update_of_ne ne ..) (fun i kept => ⟨rfl, ?_⟩)
    (.subpage index _ (update_self ..) notDevice inside (update_self ..))
    (fun o small => ?_) fun i tagged => ?_, fun _ ne => update_of_ne ne .., rfl⟩
  · refine update_of_ne ?_ ..
    rintro rfl
    obtain device | ⟨page', ne, tagged⟩ := kept
    · exact Bool.false_ne_true (notDevice.symm.trans device)
    · exact ne (refines.apart page' page i tagged here)
  · rw [subpageRegister_reach wide serves io part.le part.lt, part.paint small, owns o small]
  · obtain rfl := tagged.unique (update_self ..)
    exact ⟨refines.inUse page i here, fun page' ne tagged' => ne (refines.apart _ _ _ tagged' here)⟩

end

/-- What a round needs of the page it is for. -/
structure Fits (t : Target) (c : Registration) (addr physOffset regionOffset : Nat)
    (s : PhysState) : Prop where
  /-- Only I/O functions are registered for a part of a page. -/
  io : (checkSubpage t c addr).2.2 = true → physOffset % t.pageSize ≠ ioMemRam
  /-- A part of a page of RAM is not replaced. -/
  notRam : (checkSubpage t c addr).2.2 = true →
    physOffsetOf s.pages (addr / t.pageSize) % t.pageSize ≠ ioMemRam
  /-- Where a page is replaced as a whole, it has the region offset already. -/
  sameOffset : ∀ p, s.pages (addr / t.pageSize) = some p → p.physOffset ≠ ioMemUnassigned →
    (checkSubpage t c addr).2.2 = false → physOffset ≠ ioMemUnassigned →
    physOffset % t.pageSize ≠ ioMemRam → p.regionOffset = regionOffset
  left : needsNew t s c addr = true → 0 < free t s

theorem checkSubpage_whole {addr : Nat} (lt : (checkSubpage t c addr).2.1 < t.pageSize)
    (whole : (checkSubpage t c addr).2.2 = false) :
    (checkSubpage t c addr).1 = 0 ∧ (checkSubpage t c addr).2.1 = t.pageSize - 1 := by
  have no := of_decide_eq_false whole
  unfold checkSubpage at lt ⊢
  dsimp only at lt ⊢
  omega

section
variable {addr : Nat} (wide : 5 ≤ t.pageBits) (refines : Refines t used s own)
  (serves : Serves t used physOffset regionOffset fun o =>
    c.reaches t (addr / t.pageSize * t.pageSize + o))
  (fits : Fits t c addr physOffset regionOffset s)
  (part : Part t c (addr / t.pageSize) (checkSubpage t c addr).1 (checkSubpage t c addr).2.1)
include wide refines serves fits part

/-- The branch for a page that is not assigned. -/
theorem assignPage_spec (empty : physOffsetOf s.pages (addr / t.pageSize) = ioMemUnassigned) :
    Round t used own c (addr / t.pageSize) (needsNew t s c addr) s
      (assignPage t c addr physOffset regionOffset s) := by
  unfold assignPage
  dsimp only
  cases need : (checkSubpage t c addr).2.2 with
  | false =>
    have noNew : needsNew t s c addr = false := by rw [needsNew, need, Bool.false_and]
    obtain ⟨first, last⟩ := checkSubpage_whole part.lt need
    rw [Bool.and_false, noNew]
    rw [first, last] at part
    exact refines.setPage wide serves part
  | true =>
    have isNew : needsNew t s c addr = true := by rw [needsNew, need, empty]; rfl
    have io := fits.io need
    obtain ⟨low, even⟩ := serves.io wide io
    have unassigned : ioMemUnassigned % t.pageSize ≠ ioMemRam := by
      rw [unassigned_mod wide]
      decide
    obtain ⟨reach, shows, owns⟩ := refines.shows (addr / t.pageSize)
    rw [not_isMemory low even, isNew]
    refine refines.newSubpage wide serves io part (.unassigned _) unassigned (fun o small => ?_)
      (fits.left isNew)
    rw [owns o small, shows.unassigned wide empty]

/-- The branch for a page that is assigned. -/
theorem replacePage_spec (here : s.pages (addr / t.pageSize) = some p)
    (assigned : p.physOffset ≠ ioMemUnassigned) :
    ∃ s', replacePage t c addr physOffset regionOffset p s = .ok s' ∧
      Round t used own c (addr / t.pageSize) (needsNew t s c addr) s s' := by
  have eight := Target.entries_mul wide
  have pd := physOffsetOf_some here
  unfold replacePage
  dsimp only
  cases need : (checkSubpage t c addr).2.2 with
  | false =>
    have noNew : needsNew t s c addr = false := by rw [needsNew, need, Bool.false_and]
    obtain ⟨first, last⟩ := checkSubpage_whole part.lt need
    rw [noNew]
    rw [first, last] at part
    exact ⟨_, rfl, refines.setPage wide
      (serves.region wide (fits.sameOffset p here assigned need)) part⟩
  | true =>
    have io := fits.io need
    have notRam := fits.notRam need
    rw [pd] at notRam
    rw [if_pos rfl]
    obtain ⟨reach, shows, owns⟩ := refines.shows (addr / t.pageSize)
    cases shows with
    | empty there => cases here.symm.trans there
    | whole memory origOffset _ there before =>
      cases here.symm.trans there
      have untagged : memory.testBit 1 = false := by
        have := before.untagged wide
        rw [testBit_one]
        exact decide_eq_false (by omega)
      have isNew : needsNew t s c addr = true := by rw [needsNew, need, pd, untagged]; rfl
      rw [if_neg (by rw [untagged]; exact Bool.false_ne_true), isNew]
      exact ⟨_, rfl, refines.newSubpage wide serves io part before notRam owns (fits.left isNew)⟩
    | subpage index mmio there notDevice inside table =>
      cases here.symm.trans there
      have tagged : (index * 8 ||| ioMemSubpage).testBit 1 = true := by
        rw [subpage_tag, testBit_one]
        exact decide_eq_true (by omega)
      have entry : (index * 8 ||| ioMemSubpage) % t.pageSize / 8 = index := by
        rw [subpage_tag, Nat.mod_eq_of_lt (by omega)]
        omega
      have noNew : needsNew t s c addr = false := by rw [needsNew, need, pd, tagged]; rfl
      rw [if_pos tagged, entry, table, noNew]
      exact ⟨_, rfl, refines.changeSubpage wide serves io part there notDevice inside owns⟩

theorem registerPage_spec :
    ∃ s', registerPage t c addr physOffset regionOffset s = .ok s' ∧
      Round t used own c (addr / t.pageSize) (needsNew t s c addr) s s' := by
  unfold registerPage
  cases here : s.pages (addr / t.pageSize) with
  | none =>
    have none : physOffsetOf s.pages (addr / t.pageSize) = ioMemUnassigned := by
      rw [physOffsetOf, here]
    exact ⟨_, rfl, assignPage_spec wide refines serves fits part none⟩
  | some p =>
    dsimp only
    by_cases assigned : p.physOffset ≠ ioMemUnassigned
    · rw [if_pos assigned]
      exact replacePage_spec wide refines serves fits part here assigned
    · rw [if_neg assigned]
      exact ⟨_, rfl, assignPage_spec wide refines serves fits part
        ((physOffsetOf_some here).trans (not_not.mp assigned))⟩

end

end

end QemuStm32.Exec
