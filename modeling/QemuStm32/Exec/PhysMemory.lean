import QemuStm32.Fault
import QemuStm32.Lib.Runs

/-!
# Mapping guest-physical memory

`cpu_physical_memory_map` of `exec.c` walks the pages of a range, remembers the RAM address
of the first one and takes the rest of the buffer from the RAM block of that address.

`map_backed_iff`: the buffer is the memory of the range, or a bounce buffer for it, exactly
if the further RAM pages of the range that fall into the block are consecutive in it.
-/

namespace QemuStm32.Exec

open Runs List

abbrev Byte := BitVec 8

/-- `TARGET_PAGE_BITS` and `TARGET_PHYS_ADDR_BITS`. -/
structure Target where
  pageBits : Nat
  physBits : Nat
  paged : pageBits ≤ physBits

def Target.pageSize (t : Target) : Nat := 2 ^ t.pageBits

/-- The number of guest-physical addresses. -/
def Target.space (t : Target) : Nat := 2 ^ t.physBits

def ioMemRam : Nat := 0 * 8
def ioMemRom : Nat := 1 * 8
def ioMemUnassigned : Nat := 2 * 8

structure PhysPageDesc where
  physOffset : Nat
  regionOffset : Nat
  deriving DecidableEq

/-- What `phys_page_find` finds for a page number. -/
abbrev PhysMap := Nat → Option PhysPageDesc

/-- A block of guest RAM. Its memory on the host is an allocation of its own. -/
structure RAMBlock where
  offset : Nat
  length : Nat
  deriving DecidableEq

/-- The test `addr - block->offset < block->length` of the unsigned addresses. -/
def RAMBlock.contains (b : RAMBlock) (addr : Nat) : Bool :=
  decide (b.offset ≤ addr ∧ addr < b.offset + b.length)

structure RamList where
  blocks : List RAMBlock
  disjoint : blocks.Pairwise fun b c => ∀ addr, ¬(b.contains addr ∧ c.contains addr)

/-- A host pointer into the memory of a block. -/
structure HostPtr where
  block : RAMBlock
  offset : Nat
  deriving DecidableEq

def HostPtr.add (p : HostPtr) (i : Nat) : HostPtr := { p with offset := p.offset + i }

/-- `qemu_ram_ptr_length`: the pointer and what is left of the size. -/
def qemuRamPtrLength (ram : RamList) (addr size : Nat) : Except Fault (Option HostPtr × Nat) :=
  if size = 0 then .ok (none, 0)
  else
    match ram.blocks.find? fun block => block.contains addr with
    | some block =>
      .ok (some ⟨block, addr - block.offset⟩,
        if addr - block.offset + size > block.length then block.length - (addr - block.offset)
        else size)
    | none => .error (.aborted "Bad ram offset %lx")

/-- The addresses a bounce buffer stands for. -/
structure Bounce where
  addr : Nat
  len : Nat
  deriving DecidableEq

inductive Buffer
  | ram (p : HostPtr)
  /-- The bounce buffer, with the bytes that were read into it. -/
  | bounce (read : Option (List Byte))
  deriving DecidableEq

/-- How the loop of `cpu_physical_memory_map` ends. -/
inductive Walk
  | bounce (addr l : Nat)
  | walked (todo raddr : Nat)
  deriving DecidableEq

section
variable (t : Target) (find : PhysMap)

def physOffsetOf (page : Nat) : Nat :=
  match find page with
  | none => ioMemUnassigned
  | some p => p.physOffset

/-- The loop of `cpu_physical_memory_map`. Each round takes at least one byte. -/
def mapLoop (find : PhysMap) (busy : Bool) :
    Nat → (addr len todo raddr : Nat) → Except Fault Walk
  | _, _, 0, todo, raddr => .ok (.walked todo raddr)
  | 0, _, _ + 1, _, _ => .error .endlessLoop
  | fuel + 1, addr, len, todo, raddr =>
    let l := min (t.pageSize - addr % t.pageSize) len
    let pd := physOffsetOf find (addr / t.pageSize)
    if pd % t.pageSize ≠ ioMemRam then
      if todo ≠ 0 ∨ busy then .ok (.walked todo raddr) else .ok (.bounce addr l)
    else
      let raddr := if todo = 0 then pd / t.pageSize * t.pageSize + addr % t.pageSize else raddr
      mapLoop find busy fuel ((addr + l) % t.space) (len - l) (todo + l) raddr

def ramAddrMax : Nat := 2 ^ 64 - 1

/-- `cpu_physical_memory_read`. -/
def cpuPhysicalMemoryRead (mem : Nat → Byte) (addr len : Nat) : List Byte :=
  (List.range len).map fun i => mem ((addr + i) % t.space)

/-- `cpu_physical_memory_write`, as the bytes stored and their addresses. -/
def cpuPhysicalMemoryWrite (addr : Nat) (bytes : List Byte) : List (Nat × Byte) :=
  bytes.mapIdx fun i byte => ((addr + i) % t.space, byte)

variable (ram : RamList)

/-- The buffer, its length, and `bounce`. -/
def cpuPhysicalMemoryMap (mem : Nat → Byte)
    (bounce : Option Bounce) (addr plen : Nat) (isWrite : Bool) :
    Except Fault ((Option Buffer × Nat) × Option Bounce) :=
  mapLoop t find bounce.isSome plen addr plen 0 ramAddrMax >>= fun
    | .bounce addr l =>
      let read := if isWrite then none else some (cpuPhysicalMemoryRead t mem addr l)
      .ok ((some (.bounce read), l), some ⟨addr, l⟩)
    | .walked todo raddr =>
      qemuRamPtrLength ram raddr todo >>= fun (ret, rlen) => .ok ((ret.map .ram, rlen), bounce)

/-- The end of `cpu_physical_memory_unmap` for the bounce buffer. -/
def unmapBounce (b : Bounce) (buffer : List Byte) (isWrite : Bool) (accessLen : Nat) :
    List (Nat × Byte) :=
  if isWrite then cpuPhysicalMemoryWrite t b.addr (buffer.take accessLen) else []

/-! ## What backs an address -/

/-- The RAM address of a page of RAM. -/
def ramPage (page : Nat) : Option Nat :=
  let pd := physOffsetOf find page
  if pd % t.pageSize = ioMemRam then some (pd / t.pageSize * t.pageSize) else none

/-- The host memory behind a RAM address. -/
def hostOfRam (addr : Nat) : Option HostPtr :=
  (ram.blocks.find? fun block => block.contains addr).map fun block => ⟨block, addr - block.offset⟩

/-- The host memory behind a guest-physical address. -/
def hostOf (addr : Nat) : Option HostPtr :=
  (ramPage t find (addr / t.pageSize)).bind fun base => hostOfRam ram (base + addr % t.pageSize)

/-- Every byte of the buffer is the memory of its address; the bytes of a bounce buffer were
read from there, or are written there when it is unmapped. -/
def Backed (mem : Nat → Byte) (addr plen : Nat) (isWrite : Bool) :
    (Option Buffer × Nat) × Option Bounce → Prop
  | ((none, _), _) => True
  | ((some (.ram p), n), _) => 1 ≤ n ∧ n ≤ plen ∧
      ∀ i < n, hostOf t find ram ((addr + i) % t.space) = some (p.add i)
  | ((some (.bounce read), n), bounce) => 1 ≤ n ∧ n ≤ plen ∧
      (isWrite = false → read = some ((List.range n).map fun i => mem ((addr + i) % t.space))) ∧
      ∃ b, bounce = some b ∧ ∀ buffer : List Byte, ∀ accessLen ≤ n,
        unmapBounce t b buffer true accessLen =
          (buffer.take accessLen).mapIdx fun i byte => ((addr + i) % t.space, byte)

/-- The number of the `k`-th page from the one of `addr` on. -/
def pageFrom (addr k : Nat) : Nat := (addr / t.pageSize + k) % (t.space / t.pageSize)

/-- The pages of the range that follow its first one are consecutive in the RAM block, as far
as the range goes through pages of RAM and stays inside the block. -/
def Consecutive (addr plen : Nat) : Prop :=
  ∀ base block, ramPage t find (pageFrom t addr 0) = some base →
    ram.blocks.find? (fun block => block.contains (base + addr % t.pageSize)) = some block →
    ∀ k, 0 < k → k * t.pageSize < addr % t.pageSize + plen →
      (∀ j ≤ k, (ramPage t find (pageFrom t addr j)).isSome) →
      base + k * t.pageSize < block.offset + block.length →
      ramPage t find (pageFrom t addr k) = some (base + k * t.pageSize)

end

/-! ## The walk -/

section
variable {t : Target} {find : PhysMap} {ram : RamList}

theorem Target.pageSize_pos (t : Target) : 0 < t.pageSize := Nat.two_pow_pos _

theorem Target.space_pos (t : Target) : 0 < t.space := Nat.two_pow_pos _

theorem Target.page_dvd (t : Target) : t.pageSize ∣ t.space := Nat.pow_dvd_pow 2 t.paged

theorem Target.space_eq (t : Target) : t.space = t.pageSize * (t.space / t.pageSize) :=
  (Nat.mul_div_cancel' t.page_dvd).symm

/-- The page of a byte of a range. -/
theorem byte_page (addr i : Nat) :
    (addr + i) % t.space / t.pageSize =
      pageFrom t addr ((addr % t.pageSize + i) / t.pageSize) := by
  have split : addr + i = t.pageSize * (addr / t.pageSize) + (addr % t.pageSize + i) := by
    rw [← Nat.add_assoc, Nat.div_add_mod]
  unfold pageFrom
  rw [t.space_eq, Nat.mod_mul_right_div_self, ← t.space_eq, split, Nat.mul_add_div t.pageSize_pos]

/-- The place of a byte of a range in its page. -/
theorem byte_offset (addr i : Nat) :
    (addr + i) % t.space % t.pageSize = (addr % t.pageSize + i) % t.pageSize := by
  rw [Nat.mod_mod_of_dvd _ t.page_dvd, Nat.mod_add_mod]

variable {addr page i todo base : Nat} {block : RAMBlock}

theorem pageFrom_zero (bound : addr < t.space) : pageFrom t addr 0 = addr / t.pageSize := by
  refine Nat.mod_eq_of_lt ((Nat.div_lt_iff_lt_mul t.pageSize_pos).mpr ?_)
  rw [Nat.mul_comm, ← t.space_eq]
  exact bound

/-- Is the byte `i` of the range in RAM? -/
def RamAt (t : Target) (find : PhysMap) (addr i : Nat) : Prop :=
  (ramPage t find ((addr + i) % t.space / t.pageSize)).isSome = true

theorem ramPage_of_ram (ram : physOffsetOf find page % t.pageSize = ioMemRam) :
    ramPage t find page = some (physOffsetOf find page / t.pageSize * t.pageSize) := if_pos ram

theorem ramPage_of_not (not : ¬physOffsetOf find page % t.pageSize = ioMemRam) :
    ramPage t find page = none := if_neg not

/-- The bytes of one round are in one page. -/
theorem same_page {l : Nat} (bound : addr < t.space) (page : l ≤ t.pageSize - addr % t.pageSize)
    (lt : i < l) : (addr + i) % t.space / t.pageSize = addr / t.pageSize := by
  rw [byte_page, Nat.div_eq_of_lt (by omega), pageFrom_zero bound]

/-- A round in RAM and the rounds after it. -/
theorem walk_on {l m len : Nat} (bound : addr < t.space)
    (inRam : physOffsetOf find (addr / t.pageSize) % t.pageSize = ioMemRam)
    (page : l ≤ t.pageSize - addr % t.pageSize)
    (before : ∀ i < m, RamAt t find ((addr + l) % t.space) i)
    (after : m < len - l → ¬RamAt t find ((addr + l) % t.space) m) :
    (∀ i < l + m, RamAt t find addr i) ∧ (l + m < len → ¬RamAt t find addr (l + m)) := by
  have shifted : ∀ i, RamAt t find ((addr + l) % t.space) i ↔ RamAt t find addr (l + i) := by
    intro i
    unfold RamAt
    rw [Nat.mod_add_mod, Nat.add_assoc]
  refine ⟨fun i lt => ?_, fun lt inRam => after (by omega) ((shifted m).mpr inRam)⟩
  obtain near | far := Nat.lt_or_ge i l
  · rw [RamAt, same_page bound page near, ramPage_of_ram inRam]
    rfl
  · obtain ⟨d, rfl⟩ := Nat.exists_eq_add_of_le far
    exact (shifted d).mp (before d (by omega))

/-- From the second round on the loop walks over all RAM it finds. -/
theorem mapLoop_walks (busy : Bool) {fuel len : Nat} (raddr : Nat) (enough : len ≤ fuel)
    (bound : addr < t.space) (started : todo ≠ 0) :
    ∃ m ≤ len, mapLoop t find busy fuel addr len todo raddr = .ok (.walked (todo + m) raddr) ∧
      (∀ i < m, RamAt t find addr i) ∧ (m < len → ¬RamAt t find addr m) := by
  induction fuel generalizing addr len todo with
  | zero =>
    obtain rfl := Nat.le_zero.mp enough
    exact ⟨0, le_rfl, rfl, nofun, nofun⟩
  | succ fuel ih =>
    cases len with
    | zero => exact ⟨0, le_rfl, rfl, nofun, nofun⟩
    | succ len =>
      have here : (addr + 0) % t.space / t.pageSize = addr / t.pageSize := by
        rw [Nat.add_zero, Nat.mod_eq_of_lt bound]
      unfold mapLoop
      dsimp only
      split
      · rename_i io
        rw [if_pos (.inl started)]
        refine ⟨0, Nat.zero_le _, rfl, nofun, fun _ inRam => ?_⟩
        rw [RamAt, here, ramPage_of_not io] at inRam
        cases inRam
      · rename_i inRam
        have inRam : physOffsetOf find (addr / t.pageSize) % t.pageSize = ioMemRam :=
          Decidable.not_not.mp inRam
        have low : addr % t.pageSize < t.pageSize := Nat.mod_lt _ t.pageSize_pos
        generalize some_l : min (t.pageSize - addr % t.pageSize) (len + 1) = l
        obtain ⟨m, le, ok, before, after⟩ := ih (show len + 1 - l ≤ fuel by omega)
          (Nat.mod_lt (addr + l) t.space_pos) (show todo + l ≠ 0 by omega)
        exact ⟨l + m, by omega, by rw [ok, Nat.add_assoc],
          walk_on bound inRam (by omega) before after⟩

/-- The end of the walk: nothing is mapped, a bounce buffer stands for a part of the first page,
or all RAM from the start of the range on has been walked over. -/
theorem mapLoop_spec (find : PhysMap) (busy : Bool) (len : Nat) (bound : addr < t.space) :
    (∃ raddr, mapLoop t find busy len addr len 0 ramAddrMax = .ok (.walked 0 raddr) ∧
      (len ≠ 0 → ramPage t find (addr / t.pageSize) = none)) ∨
    (∃ l, mapLoop t find busy len addr len 0 ramAddrMax = .ok (.bounce addr l) ∧ 1 ≤ l ∧ l ≤ len ∧
      ramPage t find (addr / t.pageSize) = none) ∨
    ∃ base todo, mapLoop t find busy len addr len 0 ramAddrMax =
        .ok (.walked todo (base + addr % t.pageSize)) ∧
      ramPage t find (addr / t.pageSize) = some base ∧ 1 ≤ todo ∧ todo ≤ len ∧
      (∀ i < todo, RamAt t find addr i) ∧ (todo < len → ¬RamAt t find addr todo) := by
  cases len with
  | zero => exact .inl ⟨_, rfl, absurd rfl⟩
  | succ len =>
    have low : addr % t.pageSize < t.pageSize := Nat.mod_lt _ t.pageSize_pos
    unfold mapLoop
    dsimp only
    split
    · rename_i io
      by_cases used : busy = true
      · rw [if_pos (.inr used)]
        exact .inl ⟨_, rfl, fun _ => ramPage_of_not io⟩
      · rw [if_neg (by simp [used])]
        exact .inr (.inl ⟨_, rfl, by omega, Nat.min_le_right .., ramPage_of_not io⟩)
    · rename_i inRam
      have inRam : physOffsetOf find (addr / t.pageSize) % t.pageSize = ioMemRam :=
        Decidable.not_not.mp inRam
      rw [Nat.zero_add]
      generalize some_l : min (t.pageSize - addr % t.pageSize) (len + 1) = l
      obtain ⟨m, le, ok, before, after⟩ := mapLoop_walks busy
        (physOffsetOf find (addr / t.pageSize) / t.pageSize * t.pageSize + addr % t.pageSize)
        (show len + 1 - l ≤ len by omega) (Nat.mod_lt (addr + l) t.space_pos) (show l ≠ 0 by omega)
      exact .inr (.inr ⟨_, l + m, ok, ramPage_of_ram inRam, by omega, by omega,
        walk_on bound inRam (by omega) before after⟩)

/-! ## What is mapped -/

/-- A block that contains an address is the one that is found. -/
theorem RamList.find_eq (mem : block ∈ ram.blocks) (inside : block.contains addr) :
    ram.blocks.find? (fun block => block.contains addr) = some block := by
  have disjoint := ram.disjoint
  generalize ram.blocks = blocks at mem disjoint
  induction blocks with
  | nil => cases mem
  | cons b blocks ih =>
    rw [pairwise_cons] at disjoint
    obtain rfl | mem := mem_cons.mp mem
    · exact find?_cons_of_pos inside
    · rw [find?_cons_of_neg, ih mem disjoint.2]
      exact fun other => disjoint.1 block mem addr ⟨other, inside⟩

theorem qemuRamPtrLength_spec {size : Nat} (positive : 1 ≤ size) {p : Option HostPtr} {n : Nat}
    (ok : qemuRamPtrLength ram addr size = .ok (p, n)) :
    ∃ block, ram.blocks.find? (fun block => block.contains addr) = some block ∧
      p = some ⟨block, addr - block.offset⟩ ∧
      n = min size (block.length - (addr - block.offset)) := by
  unfold qemuRamPtrLength at ok
  rw [if_neg (by omega)] at ok
  split at ok
  · rename_i block found
    cases ok
    refine ⟨block, found, rfl, ?_⟩
    split <;> omega
  · cases ok

theorem hostOf_eq
    (page : ramPage t find (pageFrom t addr ((addr % t.pageSize + i) / t.pageSize)) = some base) :
    hostOf t find ram ((addr + i) % t.space) =
      hostOfRam ram (base + (addr % t.pageSize + i) % t.pageSize) := by
  rw [hostOf, byte_page, page, byte_offset]
  rfl

/-- The memory of the range is the part of the block the buffer is taken from, exactly if the
pages are consecutive. -/
theorem walked_backed_iff {addr plen base todo : Nat} {block : RAMBlock} (bound : addr < t.space)
    (first : ramPage t find (addr / t.pageSize) = some base) (some_todo : 1 ≤ todo)
    (within : todo ≤ plen) (before : ∀ i < todo, RamAt t find addr i)
    (after : todo < plen → ¬RamAt t find addr todo)
    (found : ram.blocks.find? (fun block => block.contains (base + addr % t.pageSize)) =
      some block) :
    (∀ i < min todo (block.length - (base + addr % t.pageSize - block.offset)),
      hostOf t find ram ((addr + i) % t.space) =
        some ⟨block, base + addr % t.pageSize - block.offset + i⟩) ↔
      Consecutive t find ram addr plen := by
  have pos := t.pageSize_pos
  have low : addr % t.pageSize < t.pageSize := Nat.mod_lt _ pos
  have inside := find?_some found
  simp only [RAMBlock.contains, decide_eq_true_eq] at inside
  have isBase : ramPage t find (pageFrom t addr 0) = some base := by rwa [pageFrom_zero bound]
  constructor
  · intro backed base' block' first' found' k positive short allRam room
    obtain rfl : base = base' := Option.some.inj (isBase.symm.trans first')
    obtain rfl : block = block' := Option.some.inj (found.symm.trans found')
    -- the first byte of the page
    have far : t.pageSize ≤ k * t.pageSize := Nat.le_mul_of_pos_left _ positive
    obtain ⟨i, start⟩ : ∃ i, addr % t.pageSize + i = k * t.pageSize :=
      ⟨k * t.pageSize - addr % t.pageSize, by omega⟩
    have page : (addr % t.pageSize + i) / t.pageSize = k := by
      rw [start, Nat.mul_div_cancel _ pos]
    have reached : i < todo := by
      by_contra stopped
      refine after (by omega) ?_
      rw [RamAt, byte_page]
      refine allRam _ ?_
      rw [← page]
      exact Nat.div_le_div_right (by omega)
    have host := backed i (by omega)
    obtain ⟨base', inRam⟩ := Option.isSome_iff_exists.mp (allRam k le_rfl)
    rw [hostOf_eq (by rwa [page]), start, Nat.mul_mod_left] at host
    obtain ⟨block', found', same⟩ := Option.map_eq_some_iff.mp host
    injection same with sameBlock sameOffset
    subst sameBlock
    rw [inRam]
    congr 1
    omega
  · intro consecutive i lt
    obtain ⟨k, page⟩ : ∃ k, (addr % t.pageSize + i) / t.pageSize = k := ⟨_, rfl⟩
    have cut := Nat.div_add_mod (addr % t.pageSize + i) t.pageSize
    rw [page, Nat.mul_comm] at cut
    have base_k : ramPage t find (pageFrom t addr k) = some (base + k * t.pageSize) := by
      cases k with
      | zero => simpa using isBase
      | succ k =>
        refine consecutive base block isBase found (k + 1) (Nat.succ_pos k) (by omega)
          (fun j le => ?_) (by omega)
        -- every page up to the one of the byte has a byte before it
        cases j with
        | zero =>
          rw [isBase]
          rfl
        | succ j =>
          have far : t.pageSize ≤ (j + 1) * t.pageSize := Nat.le_mul_of_pos_left _ (Nat.succ_pos j)
          have near : (j + 1) * t.pageSize ≤ (k + 1) * t.pageSize := Nat.mul_le_mul_right _ le
          have inRam := before ((j + 1) * t.pageSize - addr % t.pageSize) (by omega)
          have start : addr % t.pageSize + ((j + 1) * t.pageSize - addr % t.pageSize) =
              (j + 1) * t.pageSize := by omega
          rwa [RamAt, byte_page, start, Nat.mul_div_cancel _ pos] at inRam
    rw [hostOf_eq (by rwa [page]), hostOfRam, ram.find_eq (mem_of_find?_eq_some found)]
    · rw [Option.map_some]
      congr 2
      omega
    · simp only [RAMBlock.contains, decide_eq_true_eq]
      omega

/-- The buffer is backed by the range, whatever the page table, exactly if the RAM pages of the
range are consecutive. -/
theorem map_backed_iff (t : Target) (find : PhysMap) (ram : RamList) (mem : Nat → Byte)
    (bounce : Option Bounce) (addr plen : Nat) (isWrite : Bool) (bound : addr < t.space) :
    (∀ result, cpuPhysicalMemoryMap t find ram mem bounce addr plen isWrite = .ok result →
      Backed t find ram mem addr plen isWrite result) ↔ Consecutive t find ram addr plen := by
  unfold cpuPhysicalMemoryMap
  -- without RAM on the first page there is nothing to be consecutive
  have vacuous : ramPage t find (addr / t.pageSize) = none → Consecutive t find ram addr plen := by
    intro none base block first
    rw [pageFrom_zero bound, none] at first
    cases first
  obtain ⟨raddr, ok, noRam⟩ | ⟨l, ok, some_l, within, noRam⟩ |
    ⟨base, todo, ok, first, some_todo, within, before, after⟩ :=
    mapLoop_spec find bounce.isSome plen bound
  · rw [ok]
    refine iff_of_true ?_ ?_
    · rintro result ⟨⟩
      trivial
    by_cases none : plen = 0
    · intro base block _ _ k positive short
      have low : addr % t.pageSize < t.pageSize := Nat.mod_lt _ t.pageSize_pos
      have far : t.pageSize ≤ k * t.pageSize := Nat.le_mul_of_pos_left _ positive
      omega
    · exact vacuous (noRam none)
  · rw [ok]
    refine iff_of_true ?_ (vacuous noRam)
    rintro result ⟨⟩
    refine ⟨some_l, within, ?_, _, rfl, fun buffer accessLen _ => rfl⟩
    rintro rfl
    rfl
  · rw [ok, ok_bind]
    dsimp only
    cases length : qemuRamPtrLength ram (base + addr % t.pageSize) todo with
    | error e =>
      refine iff_of_true (fun result done => by cases done) ?_
      intro base' block first' found
      rw [pageFrom_zero bound, first] at first'
      cases first'
      unfold qemuRamPtrLength at length
      rw [if_neg (by omega), found] at length
      cases length
    | ok r =>
      obtain ⟨p, n⟩ := r
      obtain ⟨block, found, rfl, rfl⟩ := qemuRamPtrLength_spec some_todo length
      rw [← walked_backed_iff bound first some_todo within before after found]
      have inside := find?_some found
      simp only [RAMBlock.contains, decide_eq_true_eq] at inside
      constructor
      · intro backed
        exact (backed _ rfl).2.2
      · rintro backed result ⟨⟩
        exact ⟨by omega, by omega, backed⟩

end

/-- `target-arm`, with pages of 1 KiB. -/
def arm : Target := ⟨10, 32, by decide⟩

/-- A block of 16 KiB. -/
def sixteenK : RamList := ⟨[⟨0, 0x4000⟩], pairwise_singleton ..⟩

/-- Page 0 is the start of the block, pages 1 and 2 are 8 KiB behind it, the rest is
unassigned. -/
def scattered : PhysMap
  | 0 => some ⟨0, 0⟩
  | 1 => some ⟨0x2000, 0⟩
  | 2 => some ⟨0x2400, 0⟩
  | _ => none

/-- From the middle of page 1 to the middle of page 2. -/
theorem map_backed_iff_scattered :
    0x600 < arm.space ∧ ∀ result,
      cpuPhysicalMemoryMap arm scattered sixteenK (fun _ => 0) none 0x600 0x400 true =
        .ok result → Backed arm scattered sixteenK (fun _ => 0) 0x600 0x400 true result := by
  refine ⟨by decide, (map_backed_iff arm scattered sixteenK _ none 0x600 0x400 true
    (by decide)).mpr ?_⟩
  intro base block first found k pos inside _ _
  obtain rfl : base = 0x2000 := (Option.some.inj first).symm
  obtain rfl : k = 1 := by
    have size : arm.pageSize = 0x400 := rfl
    rw [size] at inside
    omega
  rfl

/-- The buffer for the first two pages is the first 2 KiB of the block, but the second page is
elsewhere. -/
theorem scattered_pages_mapped :
    cpuPhysicalMemoryMap arm scattered sixteenK (fun _ => 0) none 0 0x800 true =
        .ok ((some (.ram ⟨⟨0, 0x4000⟩, 0⟩), 0x800), none) ∧
      hostOf arm scattered sixteenK 0x400 = some ⟨⟨0, 0x4000⟩, 0x2000⟩ := by
  decide +kernel

end QemuStm32.Exec
