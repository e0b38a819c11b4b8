import QemuStm32.Exec.CodeWrites
import QemuStm32.Exec.PhysMemory

/-!
# Unmapping memory that was written

`cpu_physical_memory_unmap` for a buffer in RAM: a loop over the accessed bytes in steps of a
page, which sets dirty flags and invalidates code on the page where each step starts.

* `unmapLoop_spec`: what the loop does, by its rounds;
* `unmap_updates_iff`: which accesses, in which states, leave no page unmarked and no changed code.
-/

namespace QemuStm32.Tb

open Runs SlotLists

section
variable (k : Nat)

def qemuRamAddrFromHost (ram : Exec.RamList) (p : Exec.HostPtr) : Except Fault Nat :=
  match ram.blocks.find? fun block => block = p.block ∧ p.offset < block.length with
  | some block => .ok (block.offset + p.offset)
  | none => .error (.aborted "Bad ram pointer %p\n")

def setDirtyFlags (addr : Nat) (dirtyFlags : Byte) (s : State) : State :=
  { s with
    physDirty := Function.update s.physDirty (addr / 2 ^ k)
      (s.physDirty (addr / 2 ^ k) ||| dirtyFlags) }

/-- One round of the loop. -/
def unmapPage (rounds addr1 l : Nat) (s : State) : Except Fault State :=
  if s.physDirty (addr1 / 2 ^ k) = 0xff then .ok s
  else
    tbInvalidatePhysPageRange k rounds addr1 (addr1 + l) false s >>= fun s =>
    .ok (setDirtyFlags k addr1 (0xff &&& ~~~codeDirtyFlag) s)

def unmapLoop (rounds : Nat) : Nat → (addr1 accessLen : Nat) → State → Except Fault State
  | _, _, 0, s => .ok s
  | 0, _, _ + 1, _ => .error .endlessLoop
  | fuel + 1, addr1, accessLen, s =>
    let l := min (2 ^ k) accessLen
    unmapPage k rounds addr1 l s >>= unmapLoop rounds fuel (addr1 + l) (accessLen - l)

/-- `cpu_physical_memory_unmap` for a buffer that is not the bounce buffer. -/
def cpuPhysicalMemoryUnmap (rounds : Nat) (ram : Exec.RamList) (buffer : Exec.HostPtr)
    (isWrite : Bool) (accessLen : Nat) (s : State) : Except Fault State :=
  if isWrite then
    qemuRamAddrFromHost ram buffer >>= fun addr1 => unmapLoop k rounds accessLen addr1 accessLen s
  else .ok s

end

/-- All flags of the page but that for code are set. -/
def Marked (s : State) (i : Nat) : Prop :=
  s.physDirty i &&& (0xff &&& ~~~codeDirtyFlag) = 0xff &&& ~~~codeDirtyFlag

/-- A round of the loop over `len` bytes at `addr`: it is for `l` bytes at `start`. -/
def Steps (k addr len start l : Nat) : Prop :=
  ∃ j, j * 2 ^ k < len ∧ start = addr + j * 2 ^ k ∧ l = min (2 ^ k) (len - j * 2 ^ k)

/-- A round that invalidates code: the page where it starts is not fully dirty. -/
def Looks (k : Nat) (s : State) (addr len start l : Nat) : Prop :=
  Steps k addr len start l ∧ s.physDirty (start / 2 ^ k) ≠ 0xff

/-- No round hits a block twice; every page of the access has its flags, or a round starts on it;
and every block with code among the bytes is hit by a round on the page where that starts. -/
structure Treated (k : Nat) (s : State) (addr len : Nat) : Prop where
  once : ∀ start l, Looks k s addr len start l → ¬Twice k s start (start + l)
  pages : ∀ a, addr ≤ a → a < addr + len → Marked s (a / 2 ^ k) ∨
    ∃ start l, Steps k addr len start l ∧ start / 2 ^ k = a / 2 ^ k
  code : ∀ tb, Stale k s addr len tb →
    ∃ start l, Looks k s addr len start l ∧ HitOn k s start (start + l) tb

/-- What the caller of `cpu_physical_memory_unmap` relies on. -/
structure Updated (k : Nat) (s : State) (addr len : Nat) : Prop where
  marked : ∀ a, addr ≤ a → a < addr + len → Marked s (a / 2 ^ k)
  fresh : ∀ tb, ¬Stale k s addr len tb

section
variable {k n rounds addr len l : Nat} {s s' : State}

/-! ## One round -/

theorem marked_or (b : Byte) :
    (b ||| (0xff &&& ~~~codeDirtyFlag)) &&& (0xff &&& ~~~codeDirtyFlag) =
      0xff &&& ~~~codeDirtyFlag := by
  revert b
  decide

/-- The state after a round. -/
structure Round (k n addr l : Nat) (s s' : State) : Prop where
  reached : Reached k n s'
  tbs : s'.tbs = s.tbs
  live : ∀ tb, s'.live tb = true ↔ s.live tb = true ∧
    (s.physDirty (addr / 2 ^ k) ≠ 0xff → ¬HitOn k s addr (addr + l) tb)
  marked : Marked s' (addr / 2 ^ k)
  others : ∀ i, i ≠ addr / 2 ^ k → s'.physDirty i = s.physDirty i

theorem Reached.ranged {start end_ : Nat} {isCpuWriteAccess : Bool} (reached : Reached k n s)
    (h : Ranged k start end_ isCpuWriteAccess s s') : Reached k n s' := by
  obtain ⟨l, short, mem⟩ := reached.few
  refine ⟨h.linked, ⟨l, short, fun tb live => mem tb ((h.live tb).mp live).1⟩,
    h.bitmap reached.bitmap, fun tb live => ?_⟩
  rw [h.tbs]
  exact reached.spans tb ((h.live tb).mp live).1

theorem Reached.flags (reached : Reached k n s) (flags : Nat → Byte) :
    Reached k n { s with physDirty := flags } :=
  ⟨reached.linked.notes _ _ _, reached.few, reached.bitmap, reached.spans⟩

theorem unmapPage_spec (wide : 3 ≤ k) (reached : Reached k n s) (enough : 2 * n < rounds) :
    FailsIff (s.physDirty (addr / 2 ^ k) ≠ 0xff ∧ Twice k s addr (addr + l))
      (Round k n addr l s) (unmapPage k rounds addr l s) := by
  unfold unmapPage
  by_cases dirty : s.physDirty (addr / 2 ^ k) = 0xff
  · rw [if_pos dirty]
    refine ⟨fun bad => bad.1 dirty, reached, rfl, fun tb => ?_, ?_, fun _ _ => rfl⟩
    · exact ⟨fun live => ⟨live, absurd dirty⟩, And.left⟩
    · unfold Marked
      rw [dirty]
      rfl
  rw [if_neg dirty]
  have spec : FailsIff (Twice k s addr (addr + l)) _ _ :=
    range_spec wide reached.linked reached.few enough false
  cases ended : tbInvalidatePhysPageRange k rounds addr (addr + l) false s with
  | error e =>
    rw [ended] at spec
    exact ⟨dirty, spec⟩
  | ok t =>
    rw [ended] at spec
    obtain ⟨once, ranged⟩ := spec
    have flags : ∀ i, t.physDirty i = s.physDirty i := fun i =>
      (ranged.dirty i).resolve_right fun cpu => nomatch cpu.1
    refine ⟨fun bad => once bad.2, (reached.ranged ranged).flags _, ranged.tbs, fun tb => ?_, ?_,
      fun i ne => ?_⟩
    · exact (ranged.live tb).trans (and_congr_right fun _ => ⟨fun miss _ => miss, fun h => h dirty⟩)
    · unfold Marked setDirtyFlags
      dsimp only
      rw [Function.update_self]
      exact marked_or _
    · exact (Function.update_of_ne ne ..).trans (flags i)

variable {i fuel : Nat} {x : Node}

section
variable (h : Round k n addr l s s')
include h

theorem Round.onPage (on : OnPage k s' x i) : OnPage k s x i := by
  unfold OnPage at on
  rw [h.tbs] at on
  exact ⟨((h.live x.1).mp on.1).1, on.2⟩

theorem Round.onPage_iff (live : s'.live x.1 = true) (i : Nat) :
    OnPage k s' x i ↔ OnPage k s x i := by
  refine ⟨h.onPage, fun on => ⟨live, ?_⟩⟩
  rw [h.tbs]
  exact on.2

theorem Round.hit (start end_ : Nat) (x : Node) : Hit k s' start end_ x ↔ Hit k s start end_ x := by
  unfold Hit
  rw [h.tbs]

variable {start end_ : Nat}

theorem Round.twice (other : start / 2 ^ k ≠ addr / 2 ^ k) :
    Twice k s' start end_ ↔ Twice k s start end_ := by
  refine exists_congr fun tb => ?_
  rw [h.hit, h.hit]
  constructor
  · exact fun ⟨first, second, hits⟩ => ⟨h.onPage first, h.onPage second, hits⟩
  · rintro ⟨first, second, hits⟩
    -- both parts are on another page than the one of the round
    have live : s'.live tb = true := by
      refine (h.live tb).mpr ⟨first.1, fun _ ⟨m, on, _⟩ => ?_⟩
      match m with
      | 0 => exact other (first.unique on)
      | 1 => exact other (second.unique on)
    exact ⟨(h.onPage_iff (x := (tb, 0)) live _).mpr first,
      (h.onPage_iff (x := (tb, 1)) live _).mpr second, hits⟩

theorem Round.hitOn {tb : Nat} (live : s'.live tb = true) :
    HitOn k s' start end_ tb ↔ HitOn k s start end_ tb :=
  exists_congr fun m => and_congr (h.onPage_iff (x := (tb, m)) live _) (h.hit ..)

end

theorem unmapLoop_round (some : 0 < len) :
    unmapLoop k rounds (fuel + 1) addr len s =
      unmapPage k rounds addr (min (2 ^ k) len) s >>=
        unmapLoop k rounds fuel (addr + min (2 ^ k) len) (len - min (2 ^ k) len) := by
  obtain ⟨len, rfl⟩ := Nat.exists_eq_add_one.mpr some
  rfl

/-! ## The rounds -/

variable {start : Nat}

theorem not_steps_zero : ¬Steps k addr 0 start l := fun ⟨_, lt, _⟩ => Nat.not_lt_zero _ lt

theorem steps_iff (some : 0 < len) : Steps k addr len start l ↔
    start = addr ∧ l = min (2 ^ k) len ∨
      Steps k (addr + min (2 ^ k) len) (len - min (2 ^ k) len) start l := by
  constructor
  · rintro ⟨j, lt, rfl, rfl⟩
    cases j with
    | zero => exact .inl (by simp)
    | succ j =>
      rw [Nat.succ_mul] at lt ⊢
      exact .inr ⟨j, by omega, by omega, by omega⟩
  · rintro (⟨rfl, rfl⟩ | ⟨j, lt, rfl, rfl⟩)
    · exact ⟨0, by simpa using some, by simp, by simp⟩
    · refine ⟨j + 1, ?_⟩
      rw [Nat.succ_mul]
      omega

/-- The later rounds start on other pages than the first one. -/
theorem steps_behind (later : Steps k (addr + min (2 ^ k) len) (len - min (2 ^ k) len) start l) :
    start / 2 ^ k ≠ addr / 2 ^ k := by
  obtain ⟨j, lt, rfl, -⟩ := later
  rw [Nat.min_eq_left (by omega), Nat.add_assoc, Nat.add_comm (2 ^ k), ← Nat.succ_mul,
    Nat.add_mul_div_right _ _ (Nat.two_pow_pos k)]
  omega

/-- The state after the loop. -/
structure Unmapped (k addr len : Nat) (s s' : State) : Prop where
  tbs : s'.tbs = s.tbs
  live : ∀ tb, s'.live tb = true ↔ s.live tb = true ∧
    ∀ start l, Looks k s addr len start l → ¬HitOn k s start (start + l) tb
  marked : ∀ i, Marked s' i ↔ Marked s i ∨ ∃ start l, Steps k addr len start l ∧ start / 2 ^ k = i

theorem unmapped_none (k addr : Nat) (s : State) :
    FailsIff (∃ start l, Looks k s addr 0 start l ∧ Twice k s start (start + l))
      (Unmapped k addr 0 s) (.ok s) := by
  refine ⟨fun ⟨_, _, looks, _⟩ => not_steps_zero looks.1, rfl, fun tb => ?_, fun i => ?_⟩
  · exact ⟨fun live => ⟨live, fun _ _ looks => absurd looks.1 not_steps_zero⟩, And.left⟩
  · exact ⟨.inl, fun h => h.resolve_right fun ⟨_, _, steps, _⟩ => not_steps_zero steps⟩

section
variable (round : Round k n addr (min (2 ^ k) len) s s') (some : 0 < len)
include round some

theorem Round.looks_iff : Looks k s addr len start l ↔
    (start = addr ∧ l = min (2 ^ k) len ∧ s.physDirty (addr / 2 ^ k) ≠ 0xff) ∨
      Looks k s' (addr + min (2 ^ k) len) (len - min (2 ^ k) len) start l := by
  unfold Looks
  rw [steps_iff some, or_and_right]
  refine or_congr ?_ (and_congr_right fun later => ?_)
  · exact ⟨fun ⟨⟨is, l⟩, dirty⟩ => ⟨is, l, is ▸ dirty⟩, fun ⟨is, l, dirty⟩ => ⟨⟨is, l⟩, is ▸ dirty⟩⟩
  · rw [round.others _ (steps_behind later)]

/-- The first round and the others. -/
theorem Round.then {t : State}
    (rest : Unmapped k (addr + min (2 ^ k) len) (len - min (2 ^ k) len) s' t) :
    Unmapped k addr len s t := by
  refine ⟨rest.tbs.trans round.tbs, fun tb => ?_, fun i => ?_⟩
  · rw [rest.live, round.live]
    constructor
    · rintro ⟨⟨live, first⟩, others⟩
      refine ⟨live, fun start l looks => ?_⟩
      obtain ⟨rfl, rfl, dirty⟩ | later := (round.looks_iff some).mp looks
      · exact first dirty
      · rw [← round.hitOn ((round.live tb).mpr ⟨live, first⟩)]
        exact others start l later
    · rintro ⟨live, all⟩
      have first dirty := all addr _ ((round.looks_iff some).mpr (.inl ⟨rfl, rfl, dirty⟩))
      refine ⟨⟨live, first⟩, fun start l later => ?_⟩
      rw [round.hitOn ((round.live tb).mpr ⟨live, first⟩)]
      exact all start l ((round.looks_iff some).mpr (.inr later))
  · have here : Marked s' i ↔ Marked s i ∨ addr / 2 ^ k = i := by
      by_cases this : i = addr / 2 ^ k
      · simp [this, round.marked]
      · unfold Marked
        rw [round.others i this]
        simp [Ne.symm this]
    have split : (∃ start l, Steps k addr len start l ∧ start / 2 ^ k = i) ↔ addr / 2 ^ k = i ∨
        ∃ start l, Steps k (addr + min (2 ^ k) len) (len - min (2 ^ k) len) start l ∧
          start / 2 ^ k = i := by
      simp only [steps_iff some, or_and_right, exists_or]
      simp
    rw [rest.marked, here, split, or_assoc]

end

/-- The loop ends exactly if no round hits a block twice. It marks the pages where its rounds start,
and the blocks that they hit are gone. -/
theorem unmapLoop_spec (wide : 3 ≤ k) (enough : 2 * n < rounds) (reached : Reached k n s)
    (le : len ≤ fuel) :
    FailsIff (∃ start l, Looks k s addr len start l ∧ Twice k s start (start + l))
      (Unmapped k addr len s) (unmapLoop k rounds fuel addr len s) := by
  induction fuel generalizing s addr len with
  | zero =>
    obtain rfl := Nat.le_zero.mp le
    exact unmapped_none k addr s
  | succ fuel ih =>
    obtain rfl | some := Nat.eq_zero_or_pos len
    · exact unmapped_none k addr s
    have pos := Nat.two_pow_pos k
    have page : FailsIff _ _ (unmapPage k rounds addr (min (2 ^ k) len) s) :=
      unmapPage_spec wide reached enough
    rw [unmapLoop_round some]
    cases ended : unmapPage k rounds addr (min (2 ^ k) len) s with
    | error e =>
      rw [ended] at page
      exact ⟨addr, _, ⟨(steps_iff some).mpr (.inl ⟨rfl, rfl⟩), page.1⟩, page.2⟩
    | ok s₁ =>
      rw [ended] at page
      obtain ⟨once, round⟩ := page
      refine (ih round.reached (by omega)).imp ?_ fun t => round.then some
      constructor
      · rintro ⟨start, l, later, twice⟩
        rw [round.twice (steps_behind later.1)] at twice
        exact ⟨start, l, (round.looks_iff some).mpr (.inr later), twice⟩
      · rintro ⟨start, l, looks, twice⟩
        obtain ⟨rfl, rfl, dirty⟩ | later := (round.looks_iff some).mp looks
        · exact absurd ⟨dirty, twice⟩ once
        · exact ⟨start, l, later, (round.twice (steps_behind later.1)).mpr twice⟩

theorem unmapLoop_updates_iff (wide : 3 ≤ k) (enough : 2 * n < rounds) (reached : Reached k n s) :
    (∃ s', unmapLoop k rounds len addr len s = .ok s' ∧ Updated k s' addr len) ↔
      Treated k s addr len := by
  have spec : FailsIff _ _ (unmapLoop k rounds len addr len s) :=
    unmapLoop_spec wide enough reached le_rfl
  constructor
  · rintro ⟨s', ended, updated⟩
    obtain ⟨once, unmapped⟩ := spec.of_ok ended
    refine ⟨fun start l looks twice => once ⟨start, l, looks, twice⟩, fun a lower upper => ?_, ?_⟩
    · exact (unmapped.marked _).mp (updated.marked a lower upper)
    · rintro tb ⟨live, a, lower, upper, code⟩
      by_contra missed
      refine updated.fresh tb ⟨(unmapped.live tb).mpr ⟨live, fun start l looks hit => ?_⟩, a, lower,
        upper, unmapped.tbs ▸ code⟩
      exact missed ⟨start, l, looks, hit⟩
  · rintro ⟨once, pages, code⟩
    obtain ⟨s', ended, unmapped⟩ := spec.ok fun ⟨start, l, looks, twice⟩ => once start l looks twice
    refine ⟨s', ended, fun a lower upper => (unmapped.marked _).mpr (pages a lower upper), ?_⟩
    rintro tb ⟨alive, a, lower, upper, byte⟩
    obtain ⟨live, missed⟩ := (unmapped.live tb).mp alive
    obtain ⟨start, l, looks, hit⟩ := code tb ⟨live, a, lower, upper, unmapped.tbs ▸ byte⟩
    exact missed start l looks hit

end

/-! ## Buffers -/

/-- A buffer in RAM has the address it was mapped from. -/
theorem qemuRamAddrFromHost_mapped {t : Exec.Target} {find : Exec.PhysMap} {ram : Exec.RamList}
    {mem : Nat → Exec.Byte} {bounce bounce' : Option Exec.Bounce} {addr plen len : Nat}
    {isWrite : Bool} {p : Exec.HostPtr}
    (mapped : Exec.cpuPhysicalMemoryMap t find ram mem bounce addr plen isWrite =
      .ok ((some (.ram p), len), bounce')) :
    qemuRamAddrFromHost ram p = .ok (p.block.offset + p.offset) := by
  obtain ⟨walk, -, mapped⟩ := bind_ok_iff.mp mapped
  cases walk with
  | bounce addr l => cases mapped
  | walked todo raddr =>
    obtain ⟨⟨ret, rlen⟩, pointed, mapped⟩ := bind_ok_iff.mp mapped
    have some : 1 ≤ todo := by
      by_contra none
      unfold Exec.qemuRamPtrLength at pointed
      rw [if_pos (by omega)] at pointed
      cases pointed
      cases mapped
    obtain ⟨block, found, rfl, rfl⟩ := Exec.qemuRamPtrLength_spec some pointed
    cases mapped
    have inside := List.find?_some found
    simp only [Exec.RAMBlock.contains, decide_eq_true_eq] at inside
    unfold qemuRamAddrFromHost
    cases found' : ram.blocks.find? fun b =>
        decide (b = block ∧ raddr - block.offset < b.length) with
    | none =>
      have no := List.find?_eq_none.mp found' block (List.mem_of_find?_eq_some found)
      simp only [decide_eq_true_eq, not_and] at no
      exact absurd (by omega) (no trivial)
    | some b =>
      have is := List.find?_some found'
      rw [decide_eq_true_eq] at is
      rw [is.1]

/-- In every state that a run reached, after an access to a mapped buffer all its pages are marked
and no changed code is live, exactly if the rounds of the loop treat them. -/
theorem unmap_updates_iff (t : Exec.Target) (wide : 3 ≤ t.pageBits) {find : Exec.PhysMap}
    {ram : Exec.RamList} {mem : Nat → Exec.Byte} {bounce bounce' : Option Exec.Bounce}
    {addr plen len : Nat} {isWrite : Bool} {p : Exec.HostPtr}
    (mapped : Exec.cpuPhysicalMemoryMap t find ram mem bounce addr plen isWrite =
      .ok ((some (.ram p), len), bounce')) (accessLen : Nat) {rounds : Nat} {es : List Event}
    {s : State} (enough : 2 * es.length < rounds)
    (allowed : StepsMeet (step t.pageBits rounds) (Allowed t.pageBits) initial es)
    (fits : ∀ e ∈ es, TwoPages t.pageBits e) (ran : run (step t.pageBits rounds) initial es = .ok s)
    (flags : Nat → Byte) :
    (∃ s', cpuPhysicalMemoryUnmap t.pageBits rounds ram p true accessLen
        { s with physDirty := flags } = .ok s' ∧
      Updated t.pageBits s' (p.block.offset + p.offset) accessLen) ↔
      Treated t.pageBits { s with physDirty := flags } (p.block.offset + p.offset) accessLen := by
  have reached := (reached_of_run wide enough allowed fits ran).flags flags
  rw [← unmapLoop_updates_iff wide enough reached, cpuPhysicalMemoryUnmap, if_pos rfl,
    qemuRamAddrFromHost_mapped mapped, ok_bind]

/-- The RAM starts at address 0. -/
def identity : Exec.PhysMap := fun page => if page < 16 then some ⟨page * 0x400, 0⟩ else none

theorem unmap_updates_two_pages :
    Exec.cpuPhysicalMemoryMap Exec.arm identity Exec.sixteenK (fun _ => 0) none 0x400 0x500 true =
      .ok ((some (.ram ⟨⟨0, 0x4000⟩, 0x400⟩), 0x500), none) ∧
    ∃ s', cpuPhysicalMemoryUnmap 10 1 Exec.sixteenK ⟨⟨0, 0x4000⟩, 0x400⟩ true 0x500
        { initial with physDirty := fun _ => 0 } = .ok s' ∧ Updated 10 s' 0x400 0x500 := by
  have mapped : Exec.cpuPhysicalMemoryMap Exec.arm identity Exec.sixteenK (fun _ => 0) none 0x400
      0x500 true = .ok ((some (.ram ⟨⟨0, 0x4000⟩, 0x400⟩), 0x500), none) := by decide +kernel
  have short : 2 * ([] : List Event).length < 1 := by decide
  refine ⟨mapped, (unmap_updates_iff Exec.arm (by decide) mapped 0x500 short trivial (by simp) rfl
    fun _ => 0).mpr ⟨?_, fun a lower upper => .inr ?_, ?_⟩⟩
  · rintro start l - ⟨tb, ⟨live, -⟩, -⟩
    cases live
  · have lower : 0x400 ≤ a := lower
    have upper : a < 0x900 := upper
    refine ⟨_, _, ⟨a / 2 ^ 10 - 1, ?_, rfl, rfl⟩, ?_⟩
    · show (a / 2 ^ 10 - 1) * 2 ^ 10 < 0x500
      omega
    · show (0x400 + (a / 2 ^ 10 - 1) * 2 ^ 10) / 2 ^ 10 = a / 2 ^ 10
      omega
  · rintro tb ⟨live, -⟩
    cases live

/-- A block of one byte at the start of page 1. -/
def byteAtPage : Event := .link 0 0x400 1 (fun _ => false) 0x400 none

/-- An access from the last 16 bytes of page 0 into page 1: there the flags are not set, and a
block stays live. -/
theorem unmap_misses_page :
    Exec.cpuPhysicalMemoryMap Exec.arm identity Exec.sixteenK (fun _ => 0) none 0x3f0 0x20 true =
      .ok ((some (.ram ⟨⟨0, 0x4000⟩, 0x3f0⟩), 0x20), none) ∧
    ∃ s s', run (step 10 100) initial [byteAtPage] = .ok s ∧
      cpuPhysicalMemoryUnmap 10 100 Exec.sixteenK ⟨⟨0, 0x4000⟩, 0x3f0⟩ true 0x20
        { s with physDirty := fun _ => 0 } = .ok s' ∧
      ¬Marked s' 1 ∧ Stale 10 s' 0x3f0 0x20 0 := by
  refine ⟨by decide +kernel, ?_⟩
  have result : (run (step 10 100) initial [byteAtPage] >>= fun s =>
      cpuPhysicalMemoryUnmap 10 100 Exec.sixteenK ⟨⟨0, 0x4000⟩, 0x3f0⟩ true 0x20
        { s with physDirty := fun _ => 0 }).toOption.map
      (fun s => (s.physDirty 1, s.live 0, (s.tbs 0).pc, (s.tbs 0).size, (s.tbs 0).page0)) =
      some (0, true, 0x400, 1, 0x400) := by decide +kernel
  obtain ⟨s', ended, fields⟩ := exists_of_observed result
  simp only [Prod.mk.injEq] at fields
  obtain ⟨flags, live, pc, size, page⟩ := fields
  obtain ⟨s, ran, ended⟩ := bind_ok_iff.mp ended
  refine ⟨s, s', ran, ended, ?_, live, 0x400, by decide, by decide, .inl ?_⟩
  · unfold Marked
    rw [flags]
    decide
  · rw [TranslationBlock.physPc, pc, size, page]
    decide

end QemuStm32.Tb
