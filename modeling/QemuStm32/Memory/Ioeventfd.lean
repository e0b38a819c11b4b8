import QemuStm32.Lib.Runs
import QemuStm32.Memory.Region

/-!
# Eventfds of memory regions

The order of the eventfds, the merge of two sorted lists that finds what to add and to
delete, and the insertion into and removal from the list of a region.
-/

namespace QemuStm32.Memory

open List Runs

structure MemoryRegionIoeventfd where
  addr : AddrRange
  matchData : Bool
  data : Nat
  fd : Int
  deriving DecidableEq, Repr

def MemoryRegionIoeventfd.before (a b : MemoryRegionIoeventfd) : Bool :=
  if a.addr.start < b.addr.start then true
  else if a.addr.start > b.addr.start then false
  else if a.addr.size < b.addr.size then true
  else if a.addr.size > b.addr.size then false
  else if a.matchData.toNat < b.matchData.toNat then true
  else if a.matchData.toNat > b.matchData.toNat then false
  else if a.matchData ∧ a.data < b.data then true
  else if a.matchData ∧ a.data > b.data then false
  else decide (a.fd < b.fd)

def MemoryRegionIoeventfd.equal (a b : MemoryRegionIoeventfd) : Bool :=
  !a.before b && !b.before a

/-- What `ioeventfd_add` and `ioeventfd_del` are called with. -/
inductive IoeventfdCall
  | add (fd : MemoryRegionIoeventfd)
  | del (fd : MemoryRegionIoeventfd)
  deriving DecidableEq, Repr

/-- The loop of `address_space_add_del_ioeventfds` while `o` is the next old entry: `rest` is
what it does once `o` is done. -/
def advance (o : MemoryRegionIoeventfd)
    (rest : List MemoryRegionIoeventfd → List IoeventfdCall) :
    List MemoryRegionIoeventfd → List IoeventfdCall
  | [] => .del o :: rest []
  | n :: new =>
    if o.before n then .del o :: rest (n :: new)
    else if n.before o then .add n :: advance o rest new
    else rest new

def addressSpaceAddDelIoeventfds :
    List MemoryRegionIoeventfd → List MemoryRegionIoeventfd → List IoeventfdCall
  | [], new => new.map .add
  | o :: old, new => advance o (addressSpaceAddDelIoeventfds old) new

def memoryRegionAddEventfd (mrfd : MemoryRegionIoeventfd) :
    List MemoryRegionIoeventfd → List MemoryRegionIoeventfd
  | [] => [mrfd]
  | fd :: fds =>
    if mrfd.before fd then mrfd :: fd :: fds
    else fd :: memoryRegionAddEventfd mrfd fds

def memoryRegionDelEventfd (mrfd : MemoryRegionIoeventfd) (fds : List MemoryRegionIoeventfd) :
    Except Fault (List MemoryRegionIoeventfd) :=
  if fds.any mrfd.equal then
    .ok (fds.eraseP mrfd.equal)
  else .error (.assertFailed "i != mr->ioeventfd_nb")

/-- The calls for one region, one after the other. -/
def ioeventfdStep (fds : List MemoryRegionIoeventfd) :
    IoeventfdCall → Except Fault (List MemoryRegionIoeventfd)
  | .add fd => .ok (memoryRegionAddEventfd fd fds)
  | .del fd => memoryRegionDelEventfd fd fds

/-! ## The order -/

/-- The fields in the order in which they are compared. The data counts if it is matched. -/
def MemoryRegionIoeventfd.key (a : MemoryRegionIoeventfd) : ℤ ×ₗ ℤ ×ₗ ℕ ×ₗ ℕ ×ₗ ℤ :=
  toLex (a.addr.start, toLex (a.addr.size, toLex (a.matchData.toNat,
    toLex (if a.matchData then a.data else 0, a.fd))))

section
variable {a b c o n : MemoryRegionIoeventfd} {l old new fds : List MemoryRegionIoeventfd}

theorem before_iff : a.before b = true ↔ a.key < b.key := by
  unfold MemoryRegionIoeventfd.before MemoryRegionIoeventfd.key
  simp only [Prod.Lex.toLex_lt_toLex]
  cases a.matchData <;> cases b.matchData <;> simp <;> grind

theorem equal_iff : a.equal b = true ↔ a.key = b.key := by
  simp only [MemoryRegionIoeventfd.equal, Bool.and_eq_true, Bool.not_eq_true', ← Bool.not_eq_true,
    before_iff, not_lt]
  exact ⟨fun h => le_antisymm h.2 h.1, fun h => ⟨h.ge, h.le⟩⟩

/-! ## The merge -/

/-- The entries of `l` with no equal entry in `m`. -/
def missing (l m : List MemoryRegionIoeventfd) : List MemoryRegionIoeventfd :=
  l.filter fun a => !m.any a.equal

def IoeventfdCall.added? : IoeventfdCall → Option MemoryRegionIoeventfd
  | .add fd => some fd
  | .del _ => none

def IoeventfdCall.deleted? : IoeventfdCall → Option MemoryRegionIoeventfd
  | .add _ => none
  | .del fd => some fd

theorem missing_cons_of_lt (after : ∀ x ∈ l, a.key < x.key) (m : List MemoryRegionIoeventfd) :
    missing l (a :: m) = missing l m := by
  refine filter_congr fun x hx => ?_
  have apart : x.equal a = false := by
    rw [← Bool.not_eq_true, equal_iff]
    exact (after x hx).ne'
  rw [any_cons, apart, Bool.false_or]

theorem cons_missing_of_lt (after : ∀ x ∈ l, a.key < x.key) (m : List MemoryRegionIoeventfd) :
    missing (a :: m) l = a :: missing m l := by
  refine filter_cons_of_pos ?_
  rw [Bool.not_eq_true', any_eq_false]
  intro x hx
  rw [equal_iff]
  exact (after x hx).ne

theorem cons_missing_of_eq (same : a.key = b.key) (l m : List MemoryRegionIoeventfd) :
    missing (a :: l) (b :: m) = missing l (b :: m) := by
  refine filter_cons_of_neg ?_
  simp [equal_iff.mpr same]

theorem addDel_spec (ho : old.Pairwise (·.key < ·.key)) (hn : new.Pairwise (·.key < ·.key)) :
    (addressSpaceAddDelIoeventfds old new).filterMap IoeventfdCall.deleted? = missing old new ∧
      (addressSpaceAddDelIoeventfds old new).filterMap IoeventfdCall.added? = missing new old := by
  induction old generalizing new with
  | nil =>
    rw [addressSpaceAddDelIoeventfds]
    simp [missing, Function.comp_def, IoeventfdCall.deleted?, IoeventfdCall.added?]
  | cons o old ih =>
    obtain ⟨afterO, ho⟩ := pairwise_cons.mp ho
    rw [addressSpaceAddDelIoeventfds]
    induction new with
    | nil =>
      obtain ⟨deleted, added⟩ := ih ho .nil
      rw [cons_missing_of_lt (by simp), ← deleted]
      exact ⟨rfl, added⟩
    | cons n new inner =>
      obtain ⟨afterN, rest⟩ := pairwise_cons.mp hn
      rw [advance]
      split
      · next first =>
        have before := before_iff.mp first
        have after : ∀ x ∈ n :: new, o.key < x.key :=
          forall_mem_cons.mpr ⟨before, fun x hx => before.trans (afterN x hx)⟩
        obtain ⟨deleted, added⟩ := ih ho hn
        rw [cons_missing_of_lt after, missing_cons_of_lt after, ← deleted, ← added]
        exact ⟨rfl, rfl⟩
      · next notFirst =>
        split
        · next second =>
          have before := before_iff.mp second
          have after : ∀ x ∈ o :: old, n.key < x.key :=
            forall_mem_cons.mpr ⟨before, fun x hx => before.trans (afterO x hx)⟩
          obtain ⟨deleted, added⟩ := inner rest
          rw [cons_missing_of_lt after, missing_cons_of_lt after, ← deleted, ← added]
          exact ⟨rfl, rfl⟩
        · next notSecond =>
          rw [before_iff, not_lt] at notFirst notSecond
          have same : o.key = n.key := le_antisymm notSecond notFirst
          rw [cons_missing_of_eq same, cons_missing_of_eq same.symm,
            missing_cons_of_lt fun x hx => same ▸ afterO x hx,
            missing_cons_of_lt fun x hx => same ▸ afterN x hx]
          exact ih ho rest

/-! ## The list of a region -/

theorem add_perm (a : MemoryRegionIoeventfd) (fds : List MemoryRegionIoeventfd) :
    (memoryRegionAddEventfd a fds).Perm (a :: fds) := by
  induction fds with
  | nil => exact .refl _
  | cons fd fds ih =>
    rw [memoryRegionAddEventfd]
    split
    · exact .refl _
    · exact (ih.cons fd).trans (.swap a fd fds)

theorem add_sorted (sorted : fds.Pairwise (·.key ≤ ·.key)) :
    (memoryRegionAddEventfd a fds).Pairwise (·.key ≤ ·.key) := by
  induction fds with
  | nil => exact pairwise_singleton _ _
  | cons fd fds ih =>
    obtain ⟨above, rest⟩ := pairwise_cons.mp sorted
    rw [memoryRegionAddEventfd]
    split
    · next first =>
      have before := (before_iff.mp first).le
      exact pairwise_cons.mpr
        ⟨forall_mem_cons.mpr ⟨before, fun x hx => before.trans (above x hx)⟩, sorted⟩
    · next notFirst =>
      rw [before_iff, not_lt] at notFirst
      refine pairwise_cons.mpr ⟨fun x hx => ?_, ih rest⟩
      rcases mem_cons.mp ((add_perm a fds).mem_iff.mp hx) with rfl | hx
      · exact notFirst
      · exact above x hx

/-- How often an entry equal to `a` has been added and deleted. -/
def addedOften (a : MemoryRegionIoeventfd) (events : List IoeventfdCall) : Nat :=
  (events.filterMap IoeventfdCall.added?).countP a.equal

def deletedOften (a : MemoryRegionIoeventfd) (events : List IoeventfdCall) : Nat :=
  (events.filterMap IoeventfdCall.deleted?).countP a.equal

theorem run_sorted {events : List IoeventfdCall} (sorted : fds.Pairwise (·.key ≤ ·.key))
    (ran : run ioeventfdStep fds events = .ok l) :
    l.Pairwise (·.key ≤ ·.key) ∧ ∀ a, l.countP a.equal +
      deletedOften a events = fds.countP a.equal + addedOften a events := by
  induction events generalizing fds with
  | nil =>
    cases ran
    exact ⟨sorted, fun _ => rfl⟩
  | cons event events ih =>
    obtain ⟨next, stepped, ran⟩ := bind_ok_iff.mp ran
    cases event with
    | add fd =>
      obtain ⟨sorted, count⟩ := ih (add_sorted sorted) ran
      refine ⟨sorted, fun a => (count a).trans ?_⟩
      rw [(add_perm fd fds).countP_eq]
      simp only [addedOften, IoeventfdCall.added?, filterMap_cons, countP_cons]
      omega
    | del fd =>
      simp only [ioeventfdStep, memoryRegionDelEventfd] at stepped
      split at stepped
      · next found =>
        cases stepped
        obtain ⟨sorted, count⟩ := ih (sorted.sublist eraseP_sublist) ran
        refine ⟨sorted, fun a => ?_⟩
        obtain ⟨x, hx, same⟩ := any_eq_true.mp found
        obtain ⟨y, before, after, -, match', split, erased⟩ := exists_of_eraseP hx same
        have count := count a
        have like : a.equal y = a.equal fd := by
          rw [Bool.eq_iff_iff, equal_iff, equal_iff, equal_iff.mp match']
        rw [erased, countP_append] at count
        rw [split, countP_append, countP_cons, like]
        simp only [deletedOften, addedOften, IoeventfdCall.deleted?, IoeventfdCall.added?,
          filterMap_cons, countP_cons] at count ⊢
        omega
      · cases stepped

end

/-- The order of the eventfds, the merge of two lists in that order without equal entries, and
the list of a region after any calls. -/
theorem ioeventfds_in_order :
    (∀ a : MemoryRegionIoeventfd, a.before a = false) ∧
      (∀ a b c : MemoryRegionIoeventfd, a.before b = true → b.before c = true →
        a.before c = true) ∧
      (∀ a b : MemoryRegionIoeventfd, a.equal b = true ↔
        a.before b = false ∧ b.before a = false) ∧
      (∀ old new : List MemoryRegionIoeventfd,
        (old.Pairwise fun a b => a.before b = true) →
        (new.Pairwise fun a b => a.before b = true) →
        (addressSpaceAddDelIoeventfds old new).filterMap IoeventfdCall.deleted? =
            missing old new ∧
          (addressSpaceAddDelIoeventfds old new).filterMap IoeventfdCall.added? =
            missing new old) ∧
      ∀ events fds, run ioeventfdStep [] events = .ok fds →
        (fds.Pairwise fun a b => b.before a = false) ∧
          ∀ a, deletedOften a events < addedOften a events →
            ∃ rest, memoryRegionDelEventfd a fds = .ok rest := by
  refine ⟨fun a => ?_, fun a b c ab bc => ?_, fun a b => ?_, fun old new ho hn => ?_,
    fun events fds ran => ?_⟩
  · rw [← Bool.not_eq_true, before_iff]
    exact lt_irrefl _
  · rw [before_iff] at *
    exact ab.trans bc
  · simp [MemoryRegionIoeventfd.equal]
  · simp only [before_iff] at ho hn
    exact addDel_spec ho hn
  · obtain ⟨sorted, count⟩ := run_sorted .nil ran
    refine ⟨sorted.imp fun le => ?_, fun a more => ?_⟩
    · rw [← Bool.not_eq_true, before_iff, not_lt]
      exact le
    · have count := count a
      have found := countP_pos_iff.mp (show 0 < fds.countP a.equal by omega)
      exact ⟨_, if_pos (any_eq_true.mpr found)⟩

/-- An eventfd that was added twice and is deleted once: the call deletes it from the address
space although the new list still has it. -/
theorem equal_entries_deleted : let fd : MemoryRegionIoeventfd := ⟨⟨0, 4⟩, true, 0, 7⟩
    run ioeventfdStep [] [.add fd, .add fd] = .ok [fd, fd] ∧
      memoryRegionDelEventfd fd [fd, fd] = .ok [fd] ∧
      addressSpaceAddDelIoeventfds [fd, fd] [fd] = [.del fd] := by
  decide

end QemuStm32.Memory
