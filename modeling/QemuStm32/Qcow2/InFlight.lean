import QemuStm32.Lib.Runs
import QemuStm32.Qcow2.Requests

/-!
# The requests in flight

`cluster_allocs` holds the requests that have allocated clusters and are writing
their data, each once, and their guest clusters do not overlap.

A record is removed from the list more often than it is inserted: after its
clusters were linked and again at the end, or where an allocation fails and again
at the end. Nothing happens in between, so that the second removal finds the
links the first one left. Only where the L2 table of an allocated cluster cannot
be put back is a record removed that may have been off the list for long.
-/

namespace QemuStm32.Qcow2

open Intrusive Runs Function List

/-- The guest clusters of two records do not overlap. -/
def Apart (g : Geometry) (a b : L2Meta) : Prop :=
  a.offset / g.clusterSize + a.nbClusters ≤ b.offset / g.clusterSize ∨
    b.offset / g.clusterSize + b.nbClusters ≤ a.offset / g.clusterSize

variable {g : Geometry} {r i nbClusters : Nat} {p p' : Phase} {s t u : Writes} {l : List Nat}
  {ret : Option Errno} {pass : Pass} {answers : Answers}

theorem Apart.congr {a b a' b' : L2Meta} (h : Apart g a b)
    (ha : a'.offset = a.offset ∧ a'.nbClusters = a.nbClusters)
    (hb : b'.offset = b.offset ∧ b'.nbClusters = b.nbClusters) : Apart g a' b' := by
  unfold Apart at *
  rw [ha.1, ha.2, hb.1, hb.2]
  exact h

/-- The request has allocated clusters that are not linked or given up yet. -/
def Writes.InFlight (s : Writes) (r : Nat) : Prop :=
  s.phase r = .writing ∧ (s.request r).l2meta.nbClusters ≠ 0

/-- The list has exactly the requests in flight, each once, on disjoint ranges. -/
structure Tracks (g : Geometry) (s : Writes) (l : List Nat) : Prop where
  represents : s.clusterAllocs.Represents l
  members : ∀ r, r ∈ l ↔ s.InFlight r
  apart : l.Pairwise fun a b => Apart g (s.request a).l2meta (s.request b).l2meta

def AllocsTracked (g : Geometry) (s : Writes) : Prop := ∃ l, Tracks g s l

/-- Requests are numbered from 0 on, and start without a record. -/
structure Orderly (s : Writes) : Prop where
  numbered : ∀ r, s.bound ≤ r → s.phase r = .absent
  fresh : ∀ r, s.phase r = .issued → (s.request r).l2meta.nbClusters = 0

/-- The same in the middle of a step of `r`, which is not on the list. -/
structure Besides (g : Geometry) (s : Writes) (r : Nat) (l : List Nat) : Prop where
  represents : s.clusterAllocs.Represents l
  off : r ∉ l
  members : ∀ i, i ≠ r → (i ∈ l ↔ s.InFlight i)
  apart : l.Pairwise fun a b => Apart g (s.request a).l2meta (s.request b).l2meta

section
variable (s : Writes)

/-- Removing the record of `r`, if it is to be removed, changes nothing. -/
def Idle (r : Nat) : Prop :=
  (s.request r).l2meta.nbClusters ≠ 0 → s.clusterAllocs.remove r = some s.clusterAllocs

/-! ## Changes to one request -/

theorem setRequest_same (r : Nat) (q : Request) : (s.setRequest r q).request r = q :=
  update_self ..

theorem setRequest_other (q : Request) (h : i ≠ r) : (s.setRequest r q).request i = s.request i :=
  update_of_ne h _ _

theorem setPhase_same (r : Nat) (p : Phase) : (s.setPhase r p).phase r = p :=
  update_self ..

theorem setPhase_other (p : Phase) (h : i ≠ r) : (s.setPhase r p).phase i = s.phase i :=
  update_of_ne h _ _

/-- What the step of another request may do to one: wake it. -/
def Wakes (p p' : Phase) : Prop :=
  p' = p ∨ ∃ old pass, p = .waiting old pass ∧ p' = .woken pass

theorem wake_wakes (r i : Nat) : Wakes (s.phase i) ((s.wake r).phase i) := by
  simp only [Writes.wake]
  split
  · rename_i old pass waiting
    split
    · exact .inr ⟨old, pass, waiting, rfl⟩
    · exact .inl waiting.symm
  · exact .inl rfl

end

theorem Wakes.trans {p'' : Phase} (h : Wakes p p') (h' : Wakes p' p'') : Wakes p p'' := by
  obtain rfl | ⟨old, pass, rfl, rfl⟩ := h
  · exact h'
  · obtain rfl | ⟨_, _, waiting, _⟩ := h'
    · exact .inr ⟨old, pass, rfl, rfl⟩
    · cases waiting

/-- The request neither waits nor was woken. -/
def Phase.steady : Phase → Bool
  | .waiting _ _ | .woken _ => false
  | _ => true

/-- The request has run. -/
def Phase.begun : Phase → Bool
  | .absent | .issued => false
  | _ => true

theorem Wakes.iff {q : Phase} (h : Wakes p p') (steady : q.steady = true) : p' = q ↔ p = q := by
  obtain rfl | ⟨old, pass, rfl, rfl⟩ := h
  · rfl
  · constructor
    all_goals
      rintro rfl
      cases steady

/-- A step of `r` leaves the others as they are, but for those that it wakes. -/
structure Changes (s t : Writes) (r : Nat) : Prop where
  bound : t.bound = s.bound
  request : ∀ i, i ≠ r → t.request i = s.request i
  phase : ∀ i, i ≠ r → Wakes (s.phase i) (t.phase i)

theorem Changes.trans (h : Changes s t r) (h' : Changes t u r) : Changes s u r :=
  ⟨h'.bound.trans h.bound, fun i hi => (h'.request i hi).trans (h.request i hi),
    fun i hi => (h.phase i hi).trans (h'.phase i hi)⟩

theorem Changes.numbered (h : Changes s t r) (numbered : ∀ i, s.bound ≤ i → s.phase i = .absent)
    (present : s.phase r ≠ .absent) : ∀ i, t.bound ≤ i → t.phase i = .absent := by
  intro i hi
  have absent := numbered i (h.bound ▸ hi)
  have ne : i ≠ r := by
    rintro rfl
    exact present absent
  exact ((h.phase i ne).iff rfl).mpr absent

theorem setRequest_changes (s : Writes) (r : Nat) (q : Request) : Changes s (s.setRequest r q) r :=
  ⟨rfl, fun _ hi => setRequest_other s q hi, fun _ _ => .inl rfl⟩

theorem setPhase_changes (s : Writes) (r : Nat) (p : Phase) : Changes s (s.setPhase r p) r :=
  ⟨rfl, fun _ _ => rfl, fun _ hi => .inl (setPhase_other s p hi)⟩

theorem wake_changes (s : Writes) (r : Nat) : Changes s (s.wake r) r :=
  ⟨rfl, fun _ _ => rfl, fun i _ => wake_wakes s r i⟩

theorem allocs_changes (s : Writes) (r : Nat) (q : Links Nat) :
    Changes s { s with clusterAllocs := q } r :=
  ⟨rfl, fun _ _ => rfl, fun _ _ => .inl rfl⟩

/-- What a step of `r` leaves. -/
structure Settled (g : Geometry) (s t : Writes) (r : Nat) : Prop where
  tracked : AllocsTracked g t
  changes : Changes s t r
  begun : (t.phase r).begun = true

theorem Settled.after (h : Settled g t u r) (before : Changes s t r) : Settled g s u r :=
  ⟨h.tracked, before.trans h.changes, h.begun⟩

/-! ## The list in the middle of a step -/

theorem Tracks.besides (h : Tracks g s l) (off : ¬ s.InFlight r) : Besides g s r l :=
  ⟨h.represents, fun hr => off ((h.members r).mp hr), fun i _ => h.members i, h.apart⟩

section
variable (h : Besides g s r l)
include h

theorem Besides.changes (changes : Changes s t r)
    (allocs : t.clusterAllocs = s.clusterAllocs) : Besides g t r l := by
  have others : ∀ i ∈ l, i ≠ r := fun _ hi => ne_of_mem_of_not_mem hi h.off
  refine ⟨by rw [allocs]; exact h.represents, h.off, fun i hi => ?_, ?_⟩
  · rw [h.members i hi, Writes.InFlight, Writes.InFlight, changes.request i hi,
      (changes.phase i hi).iff rfl]
  · refine h.apart.imp_of_mem fun ha hb hab => ?_
    rw [changes.request _ (others _ ha), changes.request _ (others _ hb)]
    exact hab

theorem Besides.setRequest (q : Request) : Besides g (s.setRequest r q) r l :=
  h.changes (setRequest_changes s r q) rfl

theorem Besides.wake : Besides g (s.wake r) r l :=
  h.changes (wake_changes s r) rfl

/-- The step ends with `r` outside the list. -/
theorem Besides.tracks
    (off : p = .writing → (s.request r).l2meta.nbClusters = 0) : Tracks g (s.setPhase r p) l := by
  have h' : Besides g (s.setPhase r p) r l := h.changes (setPhase_changes s r p) rfl
  refine ⟨h'.represents, fun i => ?_, h'.apart⟩
  by_cases hi : i = r
  · subst hi
    refine ⟨fun mem => absurd mem h.off, fun ⟨writing, allocated⟩ => ?_⟩
    rw [setPhase_same] at writing
    exact absurd (off writing) allocated
  · exact h'.members i hi

theorem Besides.settled (off : p = .writing → (s.request r).l2meta.nbClusters = 0)
    (begun : p.begun = true) : Settled g s (s.setPhase r p) r := by
  refine ⟨⟨l, h.tracks off⟩, setPhase_changes s r p, ?_⟩
  rw [setPhase_same]
  exact begun

end

/-! ## Removal -/

theorem removeAlloc_eq {q : Links Nat} (h : s.clusterAllocs.remove r = some q) :
    s.removeAlloc r = .ok { s with clusterAllocs := q } := by
  unfold Writes.removeAlloc
  rw [h]

/-- A request that is removed again at once ends with the list as it was. -/
theorem Besides.finish (h : Besides g s r l) (idle : Idle s r) (ht : finish s r ret = .ok t) :
    Settled g s t r := by
  have dependents : runDependentRequests s r = .ok (s.wake r) := by
    unfold runDependentRequests
    split
    · rename_i allocated
      rw [removeAlloc_eq (idle allocated)]
      rfl
    · rfl
  unfold Qcow2.finish at ht
  rw [dependents] at ht
  cases ht
  exact (h.wake.settled (p := .done _) nofun rfl).after (wake_changes s r)

/-- In the middle of a step of `r`, which is on the list in front of the others. -/
structure Leads (g : Geometry) (s : Writes) (r : Nat) (l : List Nat) : Prop where
  represents : s.clusterAllocs.Represents (r :: l)
  members : ∀ i, i ≠ r → (i ∈ l ↔ s.InFlight i)
  apart : (r :: l).Pairwise fun a b => Apart g (s.request a).l2meta (s.request b).l2meta
  allocated : (s.request r).l2meta.nbClusters ≠ 0

/-- The allocation is given up. -/
theorem Leads.abandon (h : Leads g s r l)
    (ht : (s.removeAlloc r >>= fun s => finish s r ret) = .ok t) : Settled g s t r := by
  obtain ⟨q, removed, represents, again⟩ := Links.remove_represents h.represents mem_cons_self
  rw [erase_cons_head] at represents
  obtain ⟨fresh, _⟩ := nodup_cons.mp h.represents.nodup
  have besides : Besides g { s with clusterAllocs := q } r l :=
    ⟨represents, fresh, h.members, (pairwise_cons.mp h.apart).2⟩
  rw [removeAlloc_eq removed] at ht
  exact (besides.finish (fun _ => again) ht).after (allocs_changes s r q)

/-- The data of the allocated clusters is to be written. -/
theorem Leads.tracks (h : Leads g s r l) {q : Request}
    (offset : q.l2meta.offset = (s.request r).l2meta.offset)
    (nbClusters : q.l2meta.nbClusters = (s.request r).l2meta.nbClusters) :
    Tracks g ((s.setRequest r q).setPhase r .writing) (r :: l) := by
  have ranges : ∀ i, ((s.setRequest r q).request i).l2meta.offset = (s.request i).l2meta.offset ∧
      ((s.setRequest r q).request i).l2meta.nbClusters = (s.request i).l2meta.nbClusters := by
    intro i
    by_cases hi : i = r
    · subst hi
      rw [setRequest_same]
      exact ⟨offset, nbClusters⟩
    · rw [setRequest_other s q hi]
      exact ⟨rfl, rfl⟩
  refine ⟨h.represents, fun i => ?_, h.apart.imp fun hab => hab.congr (ranges _) (ranges _)⟩
  by_cases hi : i = r
  · subst hi
    refine ⟨fun _ => ⟨setPhase_same _ _ _, ?_⟩, fun _ => mem_cons_self⟩
    change ((s.setRequest i q).request i).l2meta.nbClusters ≠ 0
    rw [(ranges i).2]
    exact h.allocated
  · rw [mem_cons, or_iff_right hi, h.members i hi, Writes.InFlight, Writes.InFlight,
      setPhase_other _ _ hi]
    change _ ↔ s.phase i = _ ∧ ((s.setRequest r q).request i).l2meta.nbClusters ≠ 0
    rw [(ranges i).2]

/-! ## Allocating clusters -/

/-- What is left of the range overlaps none of the requests in flight. -/
theorem checkInFlight_apart {start left : Nat}
    (h : checkInFlight g s start l nbClusters = .ok left) :
    left ≤ nbClusters ∧ ∀ old ∈ l,
      start + left ≤ (s.request old).l2meta.offset / g.clusterSize ∨
        (s.request old).l2meta.offset / g.clusterSize + (s.request old).l2meta.nbClusters ≤
          start := by
  induction l generalizing nbClusters with
  | nil =>
    cases h
    exact ⟨le_rfl, nofun⟩
  | cons old l ih =>
    unfold checkInFlight at h
    dsimp only at h
    split at h
    · obtain ⟨le, rest⟩ := ih h
      exact ⟨le, forall_mem_cons.mpr ⟨by omega, rest⟩⟩
    by_cases before : start < (s.request old).l2meta.offset / g.clusterSize
    · rw [if_pos before, if_neg (by omega)] at h
      obtain ⟨le, rest⟩ := ih h
      exact ⟨by omega, forall_mem_cons.mpr ⟨by omega, rest⟩⟩
    · rw [if_neg before] at h
      cases h

theorem Leads.allocOut (h : Leads g s r l) {clusterOffset : BitVec 64}
    (ht : allocOut g s r pass nbClusters clusterOffset answers = .ok t) : Settled g s t r := by
  unfold Qcow2.allocOut at ht
  split at ht
  · exact h.abandon ht
  split at ht
  · cases ht
  · cases ht
    refine ⟨⟨r :: l, h.tracks rfl rfl⟩,
      (setRequest_changes s r _).trans (setPhase_changes _ r _), ?_⟩
    rw [setPhase_same]
    rfl

/-- A request whose clusters overlap no other enters the list. -/
theorem Besides.leads (h : Besides g s r l) {m : L2Meta} (allocated : m.nbClusters ≠ 0)
    (clear : ∀ old ∈ l, Apart g m (s.request old).l2meta) :
    Leads g { s.setMeta r m with clusterAllocs := s.clusterAllocs.insertHead r } r l := by
  have own : ((s.setMeta r m).request r).l2meta = m := by
    unfold Writes.setMeta
    rw [setRequest_same]
  have h' : Besides g (s.setMeta r m) r l := h.setRequest _
  refine ⟨Links.insertHead_represents h.represents h.off, h'.members, ?_, own.symm ▸ allocated⟩
  refine pairwise_cons.mpr ⟨fun old hold => ?_, h'.apart⟩
  have same : (s.setMeta r m).request old = s.request old :=
    setRequest_other s _ (ne_of_mem_of_not_mem hold h.off)
  rw [own, same]
  exact clear old hold

theorem Besides.allocNew {g : Geometry} {s t : Writes} {r : Nat} {l : List Nat}
    (h : Besides g s r l) {pass : Pass} {nbClusters : Nat} (allocated : nbClusters ≠ 0)
    (clear : ∀ old ∈ l,
      pass.offset / g.clusterSize + nbClusters ≤ (s.request old).l2meta.offset / g.clusterSize ∨
        (s.request old).l2meta.offset / g.clusterSize + (s.request old).l2meta.nbClusters ≤
          pass.offset / g.clusterSize)
    {answers : Answers} (ht : allocNew g s r pass nbClusters answers = .ok t) :
    Settled g s t r := by
  unfold Qcow2.allocNew at ht
  generalize hm : ({ (s.request r).l2meta with
    offset := pass.offset
    nStart := pass.nStart
    nbClusters := nbClusters }) = m at ht
  have leads :
      Leads g { s.setMeta r m with clusterAllocs := s.clusterAllocs.insertHead r } r l := by
    subst hm
    exact h.leads allocated clear
  have before : Changes s { s.setMeta r m with clusterAllocs := s.clusterAllocs.insertHead r } r :=
    (setRequest_changes s r _).trans (allocs_changes _ r _)
  split at ht
  · exact (leads.abandon ht).after before
  · exact (leads.allocOut ht).after before

/-- The walk along the list ends, and visits its elements. -/
theorem Besides.inFlight (h : Besides g s r l) (orderly : ∀ i, s.bound ≤ i → s.phase i = .absent) :
    inFlight s = .ok l := by
  have below : ∀ i ∈ l, i ∈ range s.bound := by
    intro i hi
    rw [mem_range]
    by_contra high
    have writing := ((h.members i (ne_of_mem_of_not_mem hi h.off)).mp hi).1
    rw [orderly i (by omega)] at writing
    cases writing
  have short : l.length ≤ s.bound := by simpa using (h.represents.nodup.subperm below).length_le
  have walk := h.represents.walk (n := s.bound + 1) (by omega)
  unfold Qcow2.inFlight
  rw [walk, if_neg (by omega)]

/-- The L2 table that shows an allocated cluster is put back without an error. -/
def Answers.PutsBack (answers : Answers) : Prop :=
  answers.table 0 &&& oflagCopied ≠ 0#64 → answers.put = none

theorem Besides.allocPass (h : Besides g s r l)
    (numbered : ∀ i, s.bound ≤ i → s.phase i = .absent) (putsBack : answers.PutsBack)
    (ht : allocPass g s r pass answers = .ok t) : Settled g s t r := by
  unfold Qcow2.allocPass at ht
  dsimp only at ht
  split at ht
  · -- the cluster is allocated already: the request has no record then
    rename_i copied
    unfold Qcow2.allocOut at ht
    rw [putsBack copied] at ht
    dsimp only at ht
    split at ht
    · cases ht
    cases ht
    refine (((h.setRequest _).setRequest _).settled (fun _ => ?_) rfl).after
      ((setRequest_changes s r _).trans (setRequest_changes _ r _))
    rw [setRequest_same]
    unfold Writes.setMeta
    rw [setRequest_same]
  · generalize (if answers.table 0 &&& oflagCompressed ≠ 0#64 then 1
      else askedClusters g pass.nEnd (g.l2Index pass.offset)) = asked at ht
    obtain ⟨i, _, ht⟩ := bind_ok_iff.mp ht
    split at ht
    · cases ht
    rw [h.inFlight numbered, ok_bind] at ht
    split at ht
    · cases ht
      exact h.settled nofun rfl
    · rename_i nbClusters clear
      split at ht
      · cases ht
      · rename_i allocated
        exact h.allocNew allocated (checkInFlight_apart clear).2 ht

/-! ## Steps and runs -/

theorem Besides.writeLoop (h : Besides g s r l) (idle : Idle s r)
    (numbered : ∀ i, s.bound ≤ i → s.phase i = .absent) (putsBack : answers.PutsBack)
    (ht : writeLoop g s r answers = .ok t) : Settled g s t r := by
  unfold Qcow2.writeLoop at ht
  dsimp only at ht
  split at ht
  · exact h.finish idle ht
  · split at ht
    · exact h.finish idle ht
    · exact h.allocPass numbered putsBack ht

/-- The request is taken off the list, if it is on it. -/
theorem Tracks.runDependentRequests (h : Tracks g s l) (writing : s.phase r = .writing) :
    ∃ t l', runDependentRequests s r = .ok t ∧ Besides g t r l' ∧ Idle t r ∧ Changes s t r ∧
      t.phase r = .writing := by
  have writing' : (s.wake r).phase r = .writing := ((wake_wakes s r r).iff rfl).mpr writing
  by_cases allocated : (s.request r).l2meta.nbClusters = 0
  · refine ⟨s.wake r, l, ?_, (h.besides fun inFlight => inFlight.2 allocated).wake,
      (absurd allocated), wake_changes s r, writing'⟩
    unfold Qcow2.runDependentRequests
    rw [if_neg (not_not.mpr allocated)]
    rfl
  · have mem : r ∈ l := (h.members r).mpr ⟨writing, allocated⟩
    obtain ⟨q, removed, represents, again⟩ := Links.remove_represents h.represents mem
    have besides : Besides g { s with clusterAllocs := q } r (l.erase r) := by
      refine ⟨represents, h.represents.nodup.not_mem_erase, fun i hi => ?_,
        h.apart.sublist erase_sublist⟩
      rw [mem_erase_of_ne hi]
      exact h.members i
    refine ⟨{ s with clusterAllocs := q }.wake r, l.erase r, ?_, besides.wake, fun _ => again,
      (allocs_changes s r q).trans (wake_changes _ r), writing'⟩
    unfold Qcow2.runDependentRequests
    rw [if_pos allocated, removeAlloc_eq removed]
    rfl

theorem Tracks.afterWrite (h : Tracks g s l) (orderly : Orderly s) (writing : s.phase r = .writing)
    (putsBack : answers.PutsBack) (ht : afterWrite g s r answers = .ok t) : Settled g s t r := by
  obtain ⟨u, l', dependents, besides, idle, changes, writing'⟩ := h.runDependentRequests writing
  have ends : ∀ ret, finish s r ret = .ok t → Settled g s t r := by
    intro ret ht
    unfold finish at ht
    rw [dependents] at ht
    cases ht
    exact (besides.settled (p := .done _) nofun rfl).after changes
  have numbered := changes.numbered orderly.numbered (by rw [writing]; nofun)
  have idle' : ∀ q : Request, q.l2meta = (u.request r).l2meta → Idle (u.setRequest r q) r := by
    intro q same allocated
    rw [setRequest_same, same] at allocated
    exact idle allocated
  unfold Qcow2.afterWrite at ht
  split at ht
  · exact ends _ ht
  split at ht
  · exact ends _ ht
  · rw [dependents] at ht
    refine ((besides.setRequest _).writeLoop (idle' _ ?_) numbered putsBack ht).after
      (changes.trans (setRequest_changes u r _))
    rfl

/-- Every answer to a request's step puts back the table of an allocated cluster. -/
def TablesPutBack : WriteEvent → Prop
  | .issue _ _ => True
  | .step _ answers => answers.PutsBack

theorem Settled.orderly (h : Settled g s t r) (orderly : Orderly s)
    (present : s.phase r ≠ .absent) : Orderly t := by
  refine ⟨h.changes.numbered orderly.numbered present, fun i issued => ?_⟩
  have ne : i ≠ r := by
    rintro rfl
    have begun := h.begun
    rw [issued] at begun
    cases begun
  rw [h.changes.request i ne]
  exact orderly.fresh i (((h.changes.phase i ne).iff rfl).mp issued)

theorem writeStep_tracked {e : WriteEvent} (h : Orderly s ∧ AllocsTracked g s)
    (putsBack : TablesPutBack e) (ht : writeStep g s e = .ok t) :
    Orderly t ∧ AllocsTracked g t := by
  obtain ⟨orderly, l, h⟩ := h
  cases e with
  | issue sectorNum remaining =>
    cases ht
    have off : ¬ s.InFlight s.bound := by
      rintro ⟨writing, _⟩
      rw [orderly.numbered s.bound le_rfl] at writing
      cases writing
    obtain ⟨represents, members, apart⟩ :=
      ((h.besides off).setRequest ⟨sectorNum, remaining, 0, emptyMeta⟩).tracks (p := .issued) nofun
    refine ⟨⟨fun i hi => ?_, fun i issued => ?_⟩, l, represents, members, apart⟩
    · have hi : s.bound + 1 ≤ i := hi
      exact (setPhase_other _ _ (by omega)).trans (orderly.numbered i (by omega))
    by_cases new : i = s.bound
    · subst new
      change ((s.setRequest s.bound _).request s.bound).l2meta.nbClusters = 0
      rw [setRequest_same]
      rfl
    · change ((s.setRequest s.bound _).request i).l2meta.nbClusters = 0
      rw [setRequest_other _ _ new]
      exact orderly.fresh i ((setPhase_other _ _ new).symm.trans issued)
  | step r answers =>
    have settle : s.phase r ≠ .absent → Settled g s t r → Orderly t ∧ AllocsTracked g t :=
      fun present settled => ⟨settled.orderly orderly present, settled.tracked⟩
    have off : s.phase r ≠ .writing → Besides g s r l :=
      fun idle => h.besides fun inFlight => idle inFlight.1
    unfold writeStep at ht
    dsimp only at ht
    split at ht
    · rename_i issued
      have idle : Idle s r := absurd (orderly.fresh r issued)
      have besides := off (by rw [issued]; nofun)
      exact settle (by rw [issued]; nofun) (besides.writeLoop idle orderly.numbered putsBack ht)
    · rename_i woken
      have besides := off (by rw [woken]; nofun)
      exact settle (by rw [woken]; nofun) (besides.allocPass orderly.numbered putsBack ht)
    · rename_i writing
      exact settle (by rw [writing]; nofun) (h.afterWrite orderly writing putsBack ht)
    all_goals
      cases ht
      exact ⟨orderly, l, h⟩

theorem start_tracked (g : Geometry) : Orderly .start ∧ AllocsTracked g .start :=
  ⟨⟨fun _ _ => rfl, nofun⟩, [], Links.empty_represents,
    fun _ => ⟨nofun, fun inFlight => absurd inFlight.1 nofun⟩, List.Pairwise.nil⟩

/-- However requests are interleaved and wherever they fail, the list has exactly
the requests in flight, as long as the table that shows an allocated cluster can
be put back. -/
theorem allocs_tracked_along (g : Geometry) (es : List WriteEvent)
    (putBack : ∀ e ∈ es, TablesPutBack e) : Always (writeStep g) (AllocsTracked g) .start es := by
  have trivially : StepsMeet (writeStep g) (fun _ _ => True) .start es := .trivial _ es
  have meet := trivially.and_events putBack
  have along : Always (writeStep g) (fun s => Orderly s ∧ AllocsTracked g s) .start es :=
    always_of_stepsMeet (fun s e t h putsBack ht => writeStep_tracked h putsBack.2 ht)
      (start_tracked g) meet
  exact along.mono fun s h => h.2

/-- Clusters of one sector. -/
def smallClusters : Geometry := ⟨9, by decide, by decide, false⟩

/-- Nothing fails, the clusters are free and `clusterOffset` is allocated. -/
def allocates (clusterOffset : Nat) : Answers :=
  ⟨none, none, none, fun _ => 0#64, .ok clusterOffset, none⟩

instance : DecidablePred TablesPutBack := by
  intro e
  cases e <;> unfold TablesPutBack
  · infer_instance
  · unfold Answers.PutsBack
    infer_instance

/-- Two requests for one cluster; the first fails to write its data, and the
second, which waited for it, allocates the cluster. -/
def failedWrite : List WriteEvent :=
  [.issue 0 1, .issue 0 1, .step 0 (allocates 4096), .step 1 (allocates 8192),
    .step 0 { allocates 8192 with write := some 5 }, .step 1 (allocates 8192)]

theorem allocs_tracked_along_failedWrite :
    ∃ t, run (writeStep smallClusters) .start failedWrite = .ok t ∧
      t.clusterAllocs.first = some 1 ∧ AllocsTracked smallClusters t := by
  obtain ⟨t, ht, first⟩ := exists_of_observed (f := fun t : Writes => t.clusterAllocs.first)
    (show (run (writeStep smallClusters) .start failedWrite).toOption.map _ = some (some 1) by
      decide +kernel)
  have along := allocs_tracked_along smallClusters failedWrite (by decide +kernel)
  exact ⟨t, ht, first, along.final ht⟩

theorem Tracks.first (h : Tracks g s l) (first : s.clusterAllocs.first = some r) :
    s.InFlight r := by
  obtain ⟨hangs, _⟩ := h.represents
  cases l with
  | nil =>
    have none : s.clusterAllocs.first = none := hangs
    cases first.symm.trans none
  | cons a l =>
    have head : s.clusterAllocs.first = some a := hangs.1
    obtain rfl := Option.some.inj (first.symm.trans head)
    exact (h.members r).mp mem_cons_self

/-- Request 1 allocates the first of its two clusters, is removed, and waits for
request 0, which has the second one. The L2 table with the cluster of request 0
cannot be written: request 0 fails, and so does request 1, which finds the cluster
allocated in the cached table. -/
def unwritableTable : List WriteEvent :=
  [.issue 1 1, .issue 0 2, .step 0 (allocates 4096), .step 1 (allocates 8192),
    .step 1 (allocates 12288), .step 0 { allocates 0 with link := some 5 },
    .step 1 { allocates 0 with table := fun _ => oflagCopied ||| 4096#64, put := some 5 }]

/-- The record of request 0, which has ended, is in the list again. -/
theorem unwritableTable_untracked :
    ∃ t, run (writeStep smallClusters) .start unwritableTable = .ok t ∧
      t.clusterAllocs.first = some 0 ∧ t.phase 0 = .done (some 5) ∧
      ¬ AllocsTracked smallClusters t := by
  obtain ⟨t, ht, observed⟩ := exists_of_observed
    (f := fun t : Writes => (t.clusterAllocs.first, t.phase 0))
    (show (run (writeStep smallClusters) .start unwritableTable).toOption.map _ =
      some (some 0, .done (some 5)) by decide +kernel)
  have first : t.clusterAllocs.first = some 0 := congrArg Prod.fst observed
  have done : t.phase 0 = .done (some 5) := congrArg Prod.snd observed
  refine ⟨t, ht, first, done, fun ⟨l, tracks⟩ => ?_⟩
  have writing := (tracks.first first).1
  cases done.symm.trans writing

end QemuStm32.Qcow2
