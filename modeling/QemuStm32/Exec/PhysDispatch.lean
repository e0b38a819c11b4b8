import QemuStm32.Exec.Subpages

/-!
# Dispatch after registrations

* `checkSubpage_spec`: the part of a page that is in the range of a call;
* `registerLoop_spec`, `register_spec`: all rounds of a call;
* `dispatch_documented`: in runs whose calls are placed so that the function can follow them,
  every access goes where the last call for its address sends it.
-/

namespace QemuStm32.Exec

open Runs List

section
variable {t : Target} {used : Nat → Bool} {s : PhysState} {own : Nat → Access} {c : Registration}

/-! ## The loop -/

/-- The rounds of the loop get to the last page of the range. -/
def Registration.Ends (t : Target) (c : Registration) : Prop :=
  c.startAddr % t.pageSize = 0 ∨ c.startAddr % t.pageSize + (c.size - 1) % t.pageSize < t.pageSize

theorem round_page (t : Target) (c : Registration) (j : Nat) :
    (c.startAddr + j * t.pageSize) / t.pageSize = c.startAddr / t.pageSize + j :=
  Nat.add_mul_div_right _ _ t.pageSize_pos

theorem covers_iff {a : Nat} :
    c.covers a = true ↔ c.startAddr ≤ a ∧ a < c.startAddr + c.size := decide_eq_true_iff

variable {j : Nat} {pages : List Nat}

/-- `CHECK_SUBPAGE` computes the part of the page that is in the range. -/
theorem checkSubpage_spec (ends : c.Ends t) (inside : j * t.pageSize < c.size) :
    Part t c (c.startAddr / t.pageSize + j) (checkSubpage t c (c.startAddr + j * t.pageSize)).1
      (checkSubpage t c (c.startAddr + j * t.pageSize)).2.1 := by
  have pos := t.pageSize_pos
  have split := Nat.div_add_mod' c.startAddr t.pageSize
  have offset := Nat.mod_lt c.startAddr pos
  unfold checkSubpage
  dsimp only
  -- the first byte is that of the range on its first page
  have low : ∃ lo, (if c.startAddr + j * t.pageSize > c.startAddr then 0
      else c.startAddr % t.pageSize) = lo ∧
      (j * t.pageSize = 0 ∧ lo = c.startAddr % t.pageSize ∨
        t.pageSize ≤ j * t.pageSize ∧ lo = 0) := by
    obtain rfl | some := Nat.eq_zero_or_pos j
    · exact ⟨_, if_neg (by omega), .inl ⟨Nat.zero_mul _, rfl⟩⟩
    · have later := Nat.le_mul_of_pos_left t.pageSize some
      exact ⟨_, if_pos (by omega), .inr ⟨later, rfl⟩⟩
  by_cases more : c.startAddr + c.size - (c.startAddr + j * t.pageSize) ≥ t.pageSize
  · rw [if_pos more]
    exact ⟨by omega, by omega, fun o small => by rw [covers_iff, Nat.add_mul]; omega⟩
  -- the last byte is in the page of this round
  have rest : (c.size - 1) % t.pageSize = c.size - 1 - j * t.pageSize := by
    rw [show c.size - 1 = c.size - 1 - j * t.pageSize + j * t.pageSize by omega,
      Nat.add_mul_mod_self_right, Nat.mod_eq_of_lt (by omega)]
    omega
  have within : c.startAddr % t.pageSize + (c.size - 1 - j * t.pageSize) < t.pageSize := by
    unfold Registration.Ends at ends
    omega
  have last : (c.startAddr + c.size - 1) % t.pageSize =
      c.startAddr % t.pageSize + (c.size - 1 - j * t.pageSize) := by
    rw [show c.startAddr + c.size - 1 = c.startAddr % t.pageSize +
        (c.size - 1 - j * t.pageSize) + j * t.pageSize +
        c.startAddr / t.pageSize * t.pageSize by omega,
      Nat.add_mul_mod_self_right, Nat.add_mul_mod_self_right, Nat.mod_eq_of_lt within]
  rw [if_neg more]
  exact ⟨by omega, by omega, fun o small => by rw [covers_iff, Nat.add_mul]; omega⟩

/-- The range has all bytes of a page. -/
def Registration.whole (t : Target) (c : Registration) (page : Nat) : Bool :=
  decide (c.startAddr ≤ page * t.pageSize ∧ (page + 1) * t.pageSize ≤ c.startAddr + c.size)

/-- The range has some of the bytes of a page. -/
def Registration.partly (t : Target) (c : Registration) (page : Nat) : Bool :=
  decide (page * t.pageSize < c.startAddr + c.size ∧ c.startAddr < (page + 1) * t.pageSize) &&
    !c.whole t page

/-- A subpage is needed where the range does not have the whole page. -/
theorem checkSubpage_need (ends : c.Ends t) (inside : j * t.pageSize < c.size) :
    (checkSubpage t c (c.startAddr + j * t.pageSize)).2.2 =
      !c.whole t (c.startAddr / t.pageSize + j) := by
  have part := checkSubpage_spec ends inside
  have lt := part.lt
  have low := part.covers 0 t.pageSize_pos
  have high := part.covers (t.pageSize - 1) (by omega)
  rw [covers_iff] at low high
  unfold Registration.whole
  rw [Nat.add_mul (c.startAddr / t.pageSize + j), ← decide_not]
  exact decide_eq_decide.mpr (by dsimp only [checkSubpage] at *; omega)

theorem checkSubpage_partly (ends : c.Ends t) (inside : j * t.pageSize < c.size) :
    (checkSubpage t c (c.startAddr + j * t.pageSize)).2.2 =
      c.partly t (c.startAddr / t.pageSize + j) := by
  have part := checkSubpage_spec ends inside
  have first := (part.covers _ (part.le.trans_lt part.lt)).mpr ⟨le_rfl, part.le⟩
  rw [covers_iff] at first
  have lt := part.le.trans_lt part.lt
  rw [checkSubpage_need ends inside, Registration.partly, Nat.add_mul _ 1,
    decide_eq_true (by omega), Bool.true_and]

/-- The calls there are: for no memory, for pages of RAM, and for the I/O functions of a
device. -/
structure Allowed (t : Target) (used : Nat → Bool) (c : Registration) : Prop where
  some : 0 < c.size
  inside : c.startAddr + c.size ≤ t.space
  kind : c.physOffset = ioMemUnassigned ∨
    (c.physOffset % t.pageSize = ioMemRam ∧ c.startAddr % t.pageSize = 0 ∧
      c.size % t.pageSize = 0) ∨
    ∃ index, Device t used index ∧ c.physOffset = index * 8

/-- `phys_offset` and `region_offset` in round `j`. -/
def Registration.offsetAt (t : Target) (c : Registration) (j : Nat) : Nat :=
  if c.physOffset % t.pageSize = ioMemRam then c.physOffset + j * t.pageSize else c.physOffset

def Registration.regionAt (t : Target) (c : Registration) (j : Nat) : Nat :=
  (if c.physOffset = ioMemUnassigned then c.startAddr else c.regionOffset) / t.pageSize *
    t.pageSize + j * t.pageSize

theorem Allowed.serves (wide : 5 ≤ t.pageBits) (allowed : Allowed t used c) (j : Nat) :
    Serves t used (c.offsetAt t j) (c.regionAt t j) fun o =>
      c.reaches t ((c.startAddr / t.pageSize + j) * t.pageSize + o) := by
  unfold Registration.offsetAt Registration.regionAt Registration.reaches
  obtain none | ⟨memory, aligned, -⟩ | ⟨index, device, here⟩ := allowed.kind
  · rw [none, unassigned_mod wide]
    exact .unassigned _
  · have assigned : c.physOffset ≠ ioMemUnassigned := fun e => by
      rw [e, unassigned_mod wide] at memory
      cases memory
    have whole := Nat.div_mul_cancel (Nat.dvd_of_mod_eq_zero aligned)
    simp only [if_pos memory, if_neg assigned]
    have same : (fun o => Access.ram (c.physOffset +
        ((c.startAddr / t.pageSize + j) * t.pageSize + o - c.startAddr))) =
        fun o => Access.ram (c.physOffset + j * t.pageSize + o) := by
      funext o
      rw [Nat.add_mul]
      congr 1
      omega
    rw [same]
    exact .ram _ _ (by rw [Nat.add_mul_mod_self_right]; exact memory)
  · have offset := device.offset wide
    have io : index * 8 % t.pageSize ≠ ioMemRam := Nat.ne_of_gt (Nat.lt_trans (by decide) offset)
    have assigned : index * 8 ≠ ioMemUnassigned := Nat.ne_of_gt (offset.trans_le (Nat.mod_le ..))
    rw [here]
    simp only [if_neg io, if_neg assigned]
    have same : (fun o => Access.io (index * 8 / 8)
        (((c.startAddr / t.pageSize + j) * t.pageSize + o - c.startAddr / t.pageSize * t.pageSize +
          c.regionOffset / t.pageSize * t.pageSize) % t.space)) = fun o => Access.io index
        ((o + (c.regionOffset / t.pageSize * t.pageSize + j * t.pageSize)) % t.space) := by
      funext o
      rw [Nat.mul_div_cancel _ (by decide), Nat.add_mul]
      congr 2
      omega
    rw [same]
    exact .device index _ device

/-- Pages of RAM are registered as wholes. -/
theorem Allowed.ram_whole (allowed : Allowed t used c) (wide : 5 ≤ t.pageBits)
    (memory : c.physOffset % t.pageSize = ioMemRam) (inside : j * t.pageSize < c.size) :
    (checkSubpage t c (c.startAddr + j * t.pageSize)).2.2 = false := by
  obtain none | ⟨-, aligned, size⟩ | ⟨index, device, here⟩ := allowed.kind
  · rw [none, unassigned_mod wide] at memory
    cases memory
  · have next : (j + 1) * t.pageSize ≤ c.size := by
      obtain ⟨n, eq⟩ := Nat.dvd_of_mod_eq_zero size
      rw [eq, Nat.mul_comm t.pageSize] at inside ⊢
      exact Nat.mul_le_mul_right _ (Nat.lt_of_mul_lt_mul_right inside)
    rw [Nat.add_mul] at next
    unfold checkSubpage
    rw [aligned, ite_self, if_pos (by omega)]
    exact decide_eq_false (by omega)
  · rw [here] at memory
    exact absurd memory (Nat.ne_of_gt (Nat.lt_trans (by decide) (device.offset wide)))

theorem Allowed.nextOffset (allowed : Allowed t used c) (wide : 5 ≤ t.pageBits)
    (inside : j * t.pageSize < c.size) (s : PhysState) :
    nextOffset t c (c.startAddr + j * t.pageSize) (c.offsetAt t j) s = c.offsetAt t (j + 1) := by
  unfold Exec.nextOffset
  by_cases memory : c.physOffset % t.pageSize = ioMemRam
  · have isMem : isMemory t (c.offsetAt t j) = true := by
      unfold isMemory Registration.offsetAt
      rw [if_pos memory, Nat.add_mul_mod_self_right, memory]
      rfl
    rw [isMem, allowed.ram_whole wide memory inside]
    unfold Registration.offsetAt
    simp [memory, Nat.add_mul, Nat.add_assoc]
  · have same : ∀ i, c.offsetAt t i = c.physOffset := fun i => if_neg memory
    have io := (allowed.serves wide 0).io wide (by rwa [same])
    rw [same] at io
    rw [same, same, not_isMemory io.1 io.2]
    exact if_neg fun both => Bool.false_ne_true both.1

/-- The number of rounds of the loop. -/
def Registration.rounds (t : Target) (c : Registration) : Nat :=
  (c.size + t.pageSize - 1) / t.pageSize

/-- Whether a page gets a new subpage. -/
def Registration.needs (t : Target) (s : PhysState) (c : Registration) (page : Nat) : Bool :=
  c.partly t page && !(physOffsetOf s.pages page).testBit 1

/-- What the rounds for some pages need: they do not take a part of a page of RAM, I/O functions
replace a whole page only at the region offset it has, and there are entries left for the new
subpages. -/
@[mk_iff]
structure Ready (t : Target) (c : Registration) (s : PhysState) (pages : List Nat) : Prop where
  notRam : ∀ page ∈ pages,
    c.partly t page = true → physOffsetOf s.pages page % t.pageSize ≠ ioMemRam
  sameOffset : ∀ page ∈ pages, ∀ p, s.pages page = some p → p.physOffset ≠ ioMemUnassigned →
    c.whole t page = true → c.physOffset ≠ ioMemUnassigned →
    c.physOffset % t.pageSize ≠ ioMemRam → p.regionOffset =
      c.regionOffset / t.pageSize * t.pageSize + (page - c.startAddr / t.pageSize) * t.pageSize
  left : pages.countP (c.needs t s) ≤ free t s

/-- What a call needs of the state. -/
def Placed (t : Target) (s : PhysState) (c : Registration) : Prop :=
  c.Ends t ∧ Ready t c s (List.range' (c.startAddr / t.pageSize) (c.rounds t))

/-- The owners after the rounds from `j` on. -/
def Registration.assignFrom (t : Target) (c : Registration) (j : Nat) (own : Nat → Access) :
    Nat → Access := fun a =>
  if c.covers a = true ∧ c.startAddr / t.pageSize + j ≤ a / t.pageSize then c.reaches t a
  else own a

theorem Registration.offsetAt_mod (t : Target) (c : Registration) (j : Nat) :
    c.offsetAt t j % t.pageSize = c.physOffset % t.pageSize := by
  unfold Registration.offsetAt
  split
  · exact Nat.add_mul_mod_self_right ..
  · rfl

/-- What a round needs, out of what the call needs. -/
theorem Ready.fits (ready : Ready t c s ((c.startAddr / t.pageSize + j) :: pages))
    (wide : 5 ≤ t.pageBits) (allowed : Allowed t used c) (ends : c.Ends t)
    (inside : j * t.pageSize < c.size) :
    Fits t c (c.startAddr + j * t.pageSize) (c.offsetAt t j) (c.regionAt t j) s := by
  have page := round_page t c j
  have here : c.startAddr / t.pageSize + j ∈ (c.startAddr / t.pageSize + j) :: pages :=
    mem_cons_self
  refine ⟨fun need memory => ?_, fun need => ?_, fun p found assigned whole io io' => ?_,
    fun new => ?_⟩
  · rw [c.offsetAt_mod] at memory
    rw [allowed.ram_whole wide memory inside] at need
    cases need
  · rw [page]
    rw [checkSubpage_partly ends inside] at need
    exact ready.notRam _ here need
  · rw [page] at found
    rw [c.offsetAt_mod] at io'
    have same : c.offsetAt t j = c.physOffset := if_neg io'
    rw [same] at io
    rw [checkSubpage_need ends inside, Bool.not_eq_false'] at whole
    rw [ready.sameOffset _ here p found assigned whole io io',
      Registration.regionAt, if_neg io, Nat.add_sub_cancel_left]
  · have counted := ready.left
    rw [countP_cons_of_pos] at counted
    · omega
    · unfold needsNew at new
      rw [page, checkSubpage_partly ends inside] at new
      exact new

/-- The other pages are as the call found them. -/
theorem Ready.rest {j : Nat} {pages : List Nat} {s' : PhysState}
    (ready : Ready t c s ((c.startAddr / t.pageSize + j) :: pages))
    (later : ∀ page ∈ pages, page ≠ c.startAddr / t.pageSize + j) (ends : c.Ends t)
    (inside : j * t.pageSize < c.size)
    (round : Round t used own c (c.startAddr / t.pageSize + j)
      (needsNew t s c (c.startAddr + j * t.pageSize)) s s') : Ready t c s' pages := by
  have same : ∀ page ∈ pages, s'.pages page = s.pages page := fun page mem =>
    round.others page (later page mem)
  have offset : ∀ page ∈ pages, physOffsetOf s'.pages page = physOffsetOf s.pages page := by
    intro page mem
    unfold physOffsetOf
    rw [same page mem]
  refine ⟨fun page mem part => ?_, fun page mem p found => ?_, ?_⟩
  · rw [offset page mem]
    exact ready.notRam page (.tail _ mem) part
  · rw [same page mem] at found
    exact ready.sameOffset page (.tail _ mem) p found
  · have counted := ready.left
    have rest : pages.countP (c.needs t s') = pages.countP (c.needs t s) :=
      countP_congr fun page mem => by
        unfold Registration.needs
        rw [offset page mem]
    have here : c.needs t s (c.startAddr / t.pageSize + j) =
        needsNew t s c (c.startAddr + j * t.pageSize) := by
      unfold Registration.needs needsNew
      rw [round_page, checkSubpage_partly ends inside]
    have left := round.left
    rw [countP_cons, here] at counted
    cases new : needsNew t s c (c.startAddr + j * t.pageSize) <;>
      simp [new] at left counted <;> omega

theorem Registration.regionAt_succ (t : Target) (c : Registration) (j : Nat) :
    c.regionAt t j + t.pageSize = c.regionAt t (j + 1) := by
  unfold Registration.regionAt
  rw [Nat.add_mul, Nat.one_mul, Nat.add_assoc]

theorem Registration.rounds_mul (t : Target) (c : Registration) :
    c.size ≤ c.rounds t * t.pageSize ∧ c.rounds t * t.pageSize < c.size + t.pageSize := by
  have pos := t.pageSize_pos
  have split := Nat.div_add_mod' (c.size + t.pageSize - 1) t.pageSize
  have small := Nat.mod_lt (c.size + t.pageSize - 1) pos
  unfold Registration.rounds
  omega

/-- The rounds end with the page of the last byte. -/
theorem Registration.Ends.last (ends : c.Ends t) (some : 0 < c.size) :
    c.startAddr % t.pageSize + c.size ≤ c.rounds t * t.pageSize := by
  have pos := t.pageSize_pos
  have split := Nat.div_add_mod' (c.size - 1) t.pageSize
  have rounds : c.rounds t = (c.size - 1) / t.pageSize + 1 := by
    unfold Registration.rounds
    rw [show c.size + t.pageSize - 1 = c.size - 1 + t.pageSize by omega, Nat.add_div_right _ pos]
  have small := Nat.mod_lt (c.size - 1) pos
  unfold Registration.Ends at ends
  rw [rounds, Nat.add_mul]
  omega

/-- The owners after a round and those after it. -/
theorem assignFrom_paint (t : Target) (c : Registration) (j : Nat) (own : Nat → Access) :
    c.assignFrom t (j + 1) (c.paint t (c.startAddr / t.pageSize + j) own) =
      c.assignFrom t j own := by
  funext a
  unfold Registration.assignFrom Registration.paint
  by_cases inside : c.covers a = true
  · obtain before | here | after :=
      Nat.lt_trichotomy (a / t.pageSize) (c.startAddr / t.pageSize + j)
    · rw [if_neg (by omega), if_neg (by omega), if_neg (by omega)]
    · rw [if_neg (by omega), if_pos ⟨here, inside⟩, if_pos ⟨inside, by omega⟩]
    · rw [if_pos ⟨inside, by omega⟩, if_pos ⟨inside, by omega⟩]
  · rw [if_neg fun both => inside both.1, if_neg fun both => inside both.2,
      if_neg fun both => inside both.1]

/-- Behind the last round there is nothing to assign. -/
theorem assignFrom_rounds (ends : c.Ends t) (some : 0 < c.size) (own : Nat → Access) :
    c.assignFrom t (c.rounds t) own = own := by
  funext a
  refine if_neg fun ⟨inside, after⟩ => ?_
  have last := ends.last some
  have split := Nat.div_add_mod' c.startAddr t.pageSize
  have low := Nat.div_mul_le_self a t.pageSize
  have high := Nat.mul_le_mul_right t.pageSize after
  rw [covers_iff] at inside
  rw [Nat.add_mul] at high
  omega

/-- A round of the loop. -/
theorem registerRound_spec (wide : 5 ≤ t.pageBits) (allowed : Allowed t used c) (ends : c.Ends t)
    (inside : j * t.pageSize < c.size) (refines : Refines t used s own)
    (ready : Ready t c s ((c.startAddr / t.pageSize + j) :: pages)) :
    ∃ s', registerPage t c (c.startAddr + j * t.pageSize) (c.offsetAt t j)
        (c.regionAt t j) s = .ok s' ∧
      Round t used own c (c.startAddr / t.pageSize + j)
        (needsNew t s c (c.startAddr + j * t.pageSize)) s s' := by
  rw [← round_page]
  refine registerPage_spec wide refines ?_ (ready.fits wide allowed ends inside) ?_
  · rw [round_page]
    exact allowed.serves wide j
  · rw [round_page]
    exact checkSubpage_spec ends inside

theorem registerLoop_spec (wide : 5 ≤ t.pageBits) (allowed : Allowed t used c) (ends : c.Ends t)
    {m : Nat} : ∀ {s own j fuel}, j + (m + 1) = c.rounds t → m < fuel → Refines t used s own →
      Ready t c s (List.range' (c.startAddr / t.pageSize + j) (m + 1)) →
      ∃ s', registerLoop t c ((c.startAddr + c.rounds t * t.pageSize) % t.space) fuel
          (c.startAddr + j * t.pageSize) (c.offsetAt t j) (c.regionAt t j) s = .ok s' ∧
        Refines t used s' (c.assignFrom t j own) := by
  have bound := allowed.inside
  have size := c.rounds_mul t
  induction m with
  | zero =>
    intro s own j fuel last enough refines ready
    obtain ⟨fuel, rfl⟩ := Nat.exists_eq_add_one_of_ne_zero (Nat.ne_zero_of_lt enough)
    have inside : j * t.pageSize < c.size := by
      rw [← last, Nat.add_mul] at size
      omega
    obtain ⟨s', ended, round⟩ := registerRound_spec wide allowed ends inside refines ready
    refine ⟨s', ?_, ?_⟩
    · rw [registerLoop, ended, ← last, Nat.add_mul, Nat.one_mul, Nat.add_assoc]
      exact if_pos rfl
    · rw [← assignFrom_paint, last, assignFrom_rounds ends allowed.some]
      exact round.refines
  | succ m ih =>
    intro s own j fuel last enough refines ready
    obtain ⟨fuel, rfl⟩ := Nat.exists_eq_add_one_of_ne_zero (Nat.ne_zero_of_lt enough)
    have step : (j + 1) * t.pageSize = j * t.pageSize + t.pageSize := Nat.succ_mul ..
    have two : j * t.pageSize + t.pageSize + t.pageSize ≤ c.rounds t * t.pageSize := by
      have := Nat.mul_le_mul_right t.pageSize (show j + 1 + 1 ≤ c.rounds t by omega)
      rwa [Nat.succ_mul (j + 1), step] at this
    have inside : j * t.pageSize < c.size := by omega
    obtain ⟨s₁, ended, round⟩ := registerRound_spec wide allowed ends inside refines ready
    have later : ∀ page ∈ range' (c.startAddr / t.pageSize + j + 1) (m + 1),
        page ≠ c.startAddr / t.pageSize + j := by
      intro page mem
      have := (mem_range'_1.mp mem).1
      omega
    obtain ⟨s', looped, refines'⟩ := ih (show j + 1 + (m + 1) = c.rounds t by omega)
      (Nat.lt_of_succ_lt_succ enough) round.refines (ready.rest later ends inside round)
    refine ⟨s', ?_, ?_⟩
    · -- the loop is not at its end
      have next : (c.startAddr + j * t.pageSize + t.pageSize) % t.space =
          c.startAddr + (j + 1) * t.pageSize := by
        rw [step, ← Nat.add_assoc]
        exact Nat.mod_eq_of_lt (by omega)
      have goes : c.startAddr + (j + 1) * t.pageSize ≠
          (c.startAddr + c.rounds t * t.pageSize) % t.space := by
        by_cases within : c.startAddr + c.rounds t * t.pageSize < t.space
        · rw [Nat.mod_eq_of_lt within]
          omega
        · rw [Nat.mod_eq_sub_mod (by omega), Nat.mod_eq_of_lt (by omega)]
          omega
      rw [registerLoop, ended, ok_bind]
      rw [next, if_neg goes, allowed.nextOffset wide inside, c.regionAt_succ]
      exact looped
    · rw [← assignFrom_paint]
      exact refines'

/-! ## Calls and runs -/

/-- What a call says about all addresses. -/
def Registration.assign (t : Target) (c : Registration) (own : Nat → Access) : Nat → Access :=
  fun a => if c.covers a then c.reaches t a else own a

theorem register_spec (wide : 5 ≤ t.pageBits) (allowed : Allowed t used c)
    (refines : Refines t used s own) (placed : Placed t s c) :
    ∃ s', cpuRegisterPhysicalMemoryLog t s c = .ok s' ∧ Refines t used s' (c.assign t own) := by
  obtain ⟨ends, ready⟩ := placed
  have some := allowed.some
  have pos := t.pageSize_pos
  have size := c.rounds_mul t
  obtain ⟨m, rounds⟩ : ∃ m, c.rounds t = m + 1 := by
    refine Nat.exists_eq_add_one_of_ne_zero fun none => ?_
    rw [none] at size
    omega
  have enough : m < t.space / t.pageSize := by
    show m + 1 ≤ t.space / t.pageSize
    rw [← rounds, Nat.le_div_iff_mul_le pos]
    have bound := allowed.inside
    exact Nat.le_of_lt_add_of_dvd (by omega) (Nat.dvd_mul_left ..) t.page_dvd
  rw [rounds] at ready
  obtain ⟨s', looped, refines'⟩ := registerLoop_spec wide allowed ends
    (show 0 + (m + 1) = c.rounds t by omega) enough refines ready
  have region : c.regionAt t 0 =
      (if c.physOffset = ioMemUnassigned then c.startAddr else c.regionOffset) / t.pageSize *
        t.pageSize := by rw [Registration.regionAt, Nat.zero_mul, Nat.add_zero]
  have offset : c.offsetAt t 0 = c.physOffset := by
    rw [Registration.offsetAt, Nat.zero_mul, Nat.add_zero, ite_self]
  have all : c.assignFrom t 0 own = c.assign t own := by
    funext a
    unfold Registration.assignFrom Registration.assign
    by_cases inside : c.covers a = true
    · have first : c.startAddr / t.pageSize + 0 ≤ a / t.pageSize :=
        Nat.div_le_div_right (of_decide_eq_true inside).1
      rw [if_pos ⟨inside, first⟩, if_pos inside]
    · rw [if_neg fun both => inside both.1, if_neg inside]
  refine ⟨s', ?_, all ▸ refines'⟩
  rw [Nat.zero_mul, offset, region] at looped
  unfold cpuRegisterPhysicalMemoryLog
  rw [if_neg (Nat.ne_of_gt some)]
  exact looped

theorem run_refines (wide : 5 ≤ t.pageBits) {calls : List Registration}
    (allowed : ∀ c ∈ calls, Allowed t used c) (refines : Refines t used s own)
    (placed : StepsMeet (cpuRegisterPhysicalMemoryLog t) (Placed t) s calls) :
    ∃ s', run (cpuRegisterPhysicalMemoryLog t) s calls = .ok s' ∧
      Refines t used s' (calls.foldl (fun own c => c.assign t own) own) := by
  induction calls generalizing s own with
  | nil => exact ⟨s, rfl, refines⟩
  | cons c calls ih =>
    obtain ⟨here, rest⟩ := placed
    obtain ⟨s₁, registered, refines₁⟩ := register_spec wide (allowed c mem_cons_self) refines here
    obtain ⟨s', ran, refines'⟩ := ih (fun c' mem => allowed c' (.tail _ mem))
      refines₁ (rest s₁ registered)
    exact ⟨s', run_cons_ok.mpr ⟨s₁, registered, ran⟩, refines'⟩

theorem foldl_assign (t : Target) (calls : List Registration) (own : Nat → Access) (a : Nat) :
    calls.foldl (fun own c => c.assign t own) own a =
      calls.foldl (fun owner c => if c.covers a then c.reaches t a else owner) (own a) := by
  induction calls generalizing own with
  | nil => rfl
  | cons c calls ih => exact ih (c.assign t own)

theorem unregistered_refines (used : Nat → Bool) :
    Refines t used (unregistered used) fun _ => .unassigned :=
  ⟨fun _ => ⟨_, .empty rfl, fun _ _ => rfl⟩, fun _ device => ⟨device, rfl⟩, nofun, nofun⟩

end

/-- In a run whose calls are placed so that the loop and the subpages can follow them, every
access goes where the last call for its address sends it. -/
theorem dispatch_documented {t : Target} (wide : 5 ≤ t.pageBits) {used : Nat → Bool}
    (reserved : ∀ i ≤ 2, used i = true) {calls : List Registration}
    (allowed : ∀ c ∈ calls, Allowed t used c)
    (placed : StepsMeet (cpuRegisterPhysicalMemoryLog t) (Placed t) (unregistered used) calls) :
    ∃ s, run (cpuRegisterPhysicalMemoryLog t) (unregistered used) calls = .ok s ∧
      ∀ isWrite a, dispatch t isWrite s a = documented t calls a := by
  obtain ⟨s, ran, refines⟩ := run_refines wide allowed (unregistered_refines used) placed
  refine ⟨s, ran, fun isWrite a => ?_⟩
  rw [refines.dispatch wide reserved, foldl_assign]
  rfl

instance (t : Target) (c : Registration) (s : PhysState) (pages : List Nat) :
    Decidable (Ready t c s pages) :=
  decidable_of_iff' _ (ready_iff t c s pages)

instance (t : Target) (s : PhysState) (c : Registration) : Decidable (Placed t s c) :=
  inferInstanceAs (Decidable ((_ ∨ _) ∧ _))

/-- Entries 0 to 4 are fixed, 5 and 6 are devices. -/
def twoDevices (i : Nat) : Bool := decide (i ≤ 6)

/-- RAM, a device over more than two pages from inside a page on, another one in the middle of
it, and no memory in its last page. -/
def board : List Registration :=
  [⟨0, 0x800, 0x2000, 0⟩, ⟨0xc10, 0x900, 5 * 8, 0x410⟩, ⟨0x1020, 0x10, 6 * 8, 0⟩,
    ⟨0x1400, 0x20, ioMemUnassigned, 0⟩]

theorem board_dispatched :
    ∃ s, run (cpuRegisterPhysicalMemoryLog arm) (unregistered twoDevices) board = .ok s ∧
      ∀ isWrite a, dispatch arm isWrite s a = documented arm board a := by
  refine dispatch_documented (by decide) (by decide) ?_ (by decide +kernel)
  simp only [board, forall_mem_cons]
  exact ⟨⟨by decide, by decide, .inr (.inl (by decide))⟩,
    ⟨by decide, by decide, .inr (.inr ⟨5, ⟨by decide, by decide, by decide⟩, rfl⟩)⟩,
    ⟨by decide, by decide, .inr (.inr ⟨6, ⟨by decide, by decide, by decide⟩, rfl⟩)⟩,
    ⟨by decide, by decide, .inl rfl⟩, nofun⟩

/-- Calls that are lost or change other accesses: a range that ends on a page after the last
round, a page that keeps its region offset, the rest of a page of RAM, and a full table. -/
theorem dispatch_differs :
    ((run (cpuRegisterPhysicalMemoryLog arm) (unregistered twoDevices)
        [⟨0x3f0, 0x20, 5 * 8, 0⟩]).toOption.map fun s => dispatch arm true s 0x3f0) =
      some .unassigned ∧
    documented arm [⟨0x3f0, 0x20, 5 * 8, 0⟩] 0x3f0 = .io 5 0x3f0 ∧
    ((run (cpuRegisterPhysicalMemoryLog arm) (unregistered twoDevices)
        [⟨0, 0x400, 5 * 8, 0⟩, ⟨0, 0x400, 6 * 8, 0x800⟩]).toOption.map
        fun s => dispatch arm true s 4) = some (.io 6 4) ∧
    documented arm [⟨0, 0x400, 5 * 8, 0⟩, ⟨0, 0x400, 6 * 8, 0x800⟩] 4 = .io 6 0x804 ∧
    ((run (cpuRegisterPhysicalMemoryLog arm) (unregistered twoDevices)
        [⟨0, 0x400, 0, 0⟩, ⟨0, 4, 5 * 8, 0⟩]).toOption.map fun s => dispatch arm true s 8) =
      some .unassigned ∧
    documented arm [⟨0, 0x400, 0, 0⟩, ⟨0, 4, 5 * 8, 0⟩] 8 = .ram 8 ∧
    ((run (cpuRegisterPhysicalMemoryLog arm) (unregistered fun _ => true)
        [⟨0, 4, 5 * 8, 0⟩]).toOption.map fun s => dispatch arm true s 0) = some (.io 127 0) ∧
    documented arm [⟨0, 4, 5 * 8, 0⟩] 0 = .io 5 0 := by
  decide +kernel

end QemuStm32.Exec
