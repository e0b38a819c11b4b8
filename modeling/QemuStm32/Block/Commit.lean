import Mathlib

/-!
# Committing an overlay

`bdrv_commit` of `block.c` copies what is allocated in an overlay to its backing file and then
empties the overlay. A backing file that is read-only is reopened for the copy and again behind
it, and what the second reopening returns replaces the error of a copy that failed.

What the drivers answer is an outcome like any other: several of them answer "not allocated", or
count no sectors, when they cannot read their tables.
-/

namespace QemuStm32.Block

def eio : Int := 5
def eacces : Int := 13
def enotsup : Int := 95
def enomedium : Int := 123

structure Backing where
  keepReadOnly : Bool
  readOnly : Bool

/-- An overlay. `data` are its sectors as the guest reads them, `allocated` are those that it
has itself. -/
structure BlockDriverState (Data : Type) where
  hasDrv : Bool
  backing : Option Backing
  data : Nat → Data
  allocated : Nat → Bool

/-- A round of the copy: what `bdrv_is_allocated` answers and counts, and what the read and the
write return if they are made. -/
structure Round where
  isAllocated : Bool
  n : Nat
  read : Int
  write : Int

/-- What the operations of a commit return. -/
structure Outcomes where
  openRw : Int
  openRo : Int
  getlength : Int
  rounds : List Round
  makeEmpty : Option Int

/-- The return value, the sectors that were written to the backing file, and whether the overlay
was emptied. -/
structure Committed (Data : Type) where
  ret : Int
  stored : List (Nat × Data)
  emptied : Bool

variable {Data : Type} (bs : BlockDriverState Data) (o : Outcomes)

/-- Up to the copy: a backing file that can be written, or what is returned without one. -/
def reopen : Except Int Backing :=
  if !bs.hasDrv then .error (-enomedium)
  else
    match bs.backing with
    | none => .error (-enotsup)
    | some backing =>
      if backing.keepReadOnly then .error (-eacces)
      else if backing.readOnly ∧ o.openRw < 0 then
        if o.openRo < 0 then .error o.openRo else .error o.openRw
      else .ok backing

/-- The loop over the extents: whether it came to its end, and what it wrote. There is no result
if these are not its rounds: if it goes on behind them, or ends before. -/
def copyFrom (totalSectors : Int) : List Round → Nat → Option (Bool × List (Nat × Data))
  | [], sector => if sector < totalSectors then none else some (true, [])
  | r :: rest, sector =>
    if sector < totalSectors then
      if r.isAllocated then
        if r.read ≠ 0 ∨ r.write ≠ 0 then if rest.isEmpty then some (false, []) else none
        else do
          let (done, stored) ← copyFrom totalSectors rest (sector + r.n)
          some (done, (List.range r.n).map (fun i => (sector + i, bs.data (sector + i))) ++ stored)
      else copyFrom totalSectors rest (sector + r.n)
    else none

def bdrvCommit : Option (Committed Data) :=
  match reopen bs o with
  | .error ret => some ⟨ret, [], false⟩
  | .ok backing => do
    -- `bdrv_getlength(bs) >> BDRV_SECTOR_BITS`
    let (done, stored) ← copyFrom bs (o.getlength / 512) o.rounds 0
    let ret := if done then o.makeEmpty.getD 0 else -eio
    some ⟨if backing.readOnly then o.openRo else ret, stored, done && o.makeEmpty.isSome⟩

/-! ## The copy -/

/-- A sector that was called allocated could not be copied. -/
def Round.Fails (r : Round) : Prop := r.isAllocated = true ∧ (r.read ≠ 0 ∨ r.write ≠ 0)

/-- The sectors that the driver calls allocated, from `sector` on. -/
def reported : Nat → List Round → List Nat
  | _, [] => []
  | sector, r :: rest =>
    (if r.isAllocated then (List.range r.n).map (sector + ·) else []) ++
      reported (sector + r.n) rest

variable {bs o}

/-- The loop comes to its end exactly if no copy fails, and then it has written the sectors that
were called allocated. -/
theorem copyFrom_spec {total : Int} {rounds : List Round} {sector : Nat} {done : Bool}
    {stored : List (Nat × Data)} (h : copyFrom bs total rounds sector = some (done, stored)) :
    (done = true ↔ ∀ r ∈ rounds, ¬r.Fails) ∧
      (done = true → stored = (reported sector rounds).map fun s => (s, bs.data s)) := by
  fun_induction copyFrom bs total rounds sector generalizing done stored with
  | case1 => cases h
  | case2 =>
    cases h
    simp [reported]
  | case3 r rest sector more is fails last =>
    cases h
    have failed : r.Fails := ⟨is, fails⟩
    simp [failed]
  | case4 => cases h
  | case5 r rest sector more is copied ih =>
    obtain ⟨⟨rested, others⟩, restEq, eq⟩ := Option.bind_eq_some_iff.mp h
    cases eq
    obtain ⟨ended, written⟩ := ih restEq
    have succeeds : ¬r.Fails := fun fails => copied fails.2
    refine ⟨by simp [ended, succeeds], fun finished => ?_⟩
    simp [reported, is, written finished, Function.comp_def]
  | case6 r rest sector more hole ih =>
    obtain ⟨ended, written⟩ := ih h
    have succeeds : ¬r.Fails := fun fails => hole fails.1
    refine ⟨by simp [ended, succeeds], fun finished => ?_⟩
    simp [reported, hole, written finished]
  | case7 => cases h

/-! ## The commit -/

theorem reopen_error {e : Int} (h : reopen bs o = .error e) : e < 0 := by
  unfold reopen at h
  split at h
  · cases h
    decide
  split at h
  · cases h
    decide
  split at h
  · cases h
    decide
  · split at h
    · split at h <;> cases h <;> omega
    · cases h

/-- What a commit returns if all copies succeed. -/
def Outcomes.last (o : Outcomes) (backing : Backing) : Int :=
  if backing.readOnly then o.openRo else o.makeEmpty.getD 0

/-- One allocated sector over a backing file that is read-only. -/
def oneSector : BlockDriverState Nat := ⟨true, some ⟨false, true⟩, id, (· = 0)⟩

end QemuStm32.Block
