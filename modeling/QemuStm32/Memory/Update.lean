import QemuStm32.Memory.Region

/-!
# Updating the topology

`address_space_update_topology` of `memory.c` compares the view that an address
space has with its new one and tells its listener what changed: ranges that went,
ranges that came, and ranges whose dirty logging was switched. Two cursors walk
through both views, once for the ranges that went and once for the others.
-/

namespace QemuStm32.Memory

open List

/-- The `AddressSpaceOps` that a topology update calls. -/
inductive TopologyCall
  | rangeDel (fr : FlatRange)
  | rangeAdd (fr : FlatRange)
  | logStart (fr : FlatRange)
  | logStop (fr : FlatRange)
  deriving DecidableEq, Repr

/-- Dirty logging is not compared. -/
def flatrangeEqual (a b : FlatRange) : Bool :=
  decide (a.mr = b.mr) && decide (a.addr = b.addr) &&
    decide (a.offsetInRegion = b.offsetInRegion) && decide (a.readable = b.readable) &&
    decide (a.readonly = b.readonly)

/-- What is called for a range that is in both views. -/
def logCalls (frold frnew : FlatRange) : List TopologyCall :=
  if frold.dirtyLogMask ≠ 0 ∧ frnew.dirtyLogMask = 0 then [.logStop frnew]
  else if frnew.dirtyLogMask ≠ 0 ∧ frold.dirtyLogMask = 0 then [.logStart frnew]
  else []

def addressSpaceUpdateTopologyPass (adding : Bool) :
    Nat → FlatView → FlatView → Except Fault (List TopologyCall)
  | 0, _, _ => .error .endlessLoop
  | _ + 1, [], [] => .ok []
  | rounds + 1, frold :: old, [] => do
    let calls ← addressSpaceUpdateTopologyPass adding rounds old []
    .ok ((if ¬ adding then [.rangeDel frold] else []) ++ calls)
  | rounds + 1, [], frnew :: new => do
    let calls ← addressSpaceUpdateTopologyPass adding rounds [] new
    .ok ((if adding then [.rangeAdd frnew] else []) ++ calls)
  | rounds + 1, frold :: old, frnew :: new => do
    if frold.addr.start < frnew.addr.start ∨
        frold.addr.start = frnew.addr.start ∧ ¬ flatrangeEqual frold frnew then
      let calls ← addressSpaceUpdateTopologyPass adding rounds old (frnew :: new)
      .ok ((if ¬ adding then [.rangeDel frold] else []) ++ calls)
    else if flatrangeEqual frold frnew then
      let calls ← addressSpaceUpdateTopologyPass adding rounds old new
      .ok ((if adding then logCalls frold frnew else []) ++ calls)
    else
      let calls ← addressSpaceUpdateTopologyPass adding rounds (frold :: old) new
      .ok ((if adding then [.rangeAdd frnew] else []) ++ calls)

/-- Each round moves a cursor, so that there are no more than both views have ranges. -/
def addressSpaceUpdateTopology (old new : FlatView) : Except Fault (List TopologyCall) := do
  let deleted ← addressSpaceUpdateTopologyPass false (old.length + new.length + 1) old new
  let added ← addressSpaceUpdateTopologyPass true (old.length + new.length + 1) old new
  .ok (deleted ++ added)

/-! ## The calls -/

/-- Ranges of `old` with no equal range in `new`. -/
def deletions (old new : FlatView) : List TopologyCall :=
  (old.filter fun o => ¬ new.any (flatrangeEqual o)).map .rangeDel

/-- A range of the new view is added, or its logging is switched. -/
def additionCalls (old : FlatView) (n : FlatRange) : List TopologyCall :=
  match old.find? (flatrangeEqual · n) with
  | none => [.rangeAdd n]
  | some o => logCalls o n

def additions (old new : FlatView) : List TopologyCall :=
  new.flatMap (additionCalls old)

/-- Each range starts behind the start of the one before, as sorted disjoint ranges
with an address in them do. -/
def Ascending (view : FlatView) : Prop :=
  view.Pairwise fun r s => r.addr.start < s.addr.start

instance (view : FlatView) : Decidable (Ascending view) :=
  inferInstanceAs (Decidable (List.Pairwise _ _))

variable {b o n r : FlatRange} {new old view : FlatView} {a : Int} {calls : List TopologyCall}

theorem flatrangeEqual_iff {a : FlatRange} : flatrangeEqual a b = true ↔
    a.mr = b.mr ∧ a.addr = b.addr ∧ a.offsetInRegion = b.offsetInRegion ∧
      a.readable = b.readable ∧ a.readonly = b.readonly := by
  simp [flatrangeEqual, and_assoc]

theorem not_equal_of_start {a : FlatRange} (h : a.addr.start ≠ b.addr.start) :
    flatrangeEqual a b = false := by
  cases equal : flatrangeEqual a b with
  | false => rfl
  | true => exact absurd (congrArg AddrRange.start (flatrangeEqual_iff.mp equal).2.1) h

/-- Ranges behind one that starts no earlier than `o`. -/
theorem Ascending.apart (h : Ascending (r :: view)) (le : o.addr.start ≤ r.addr.start) :
    ∀ s ∈ view, flatrangeEqual o s = false ∧ flatrangeEqual s o = false := by
  intro s hs
  have := (pairwise_cons.mp h).1 s hs
  exact ⟨not_equal_of_start (by omega), not_equal_of_start (by omega)⟩

/-- The calls of a pass. -/
def passCalls (adding : Bool) (old new : FlatView) : List TopologyCall :=
  if adding then additions old new else deletions old new

/-- A range of `old` without an equal one is deleted, and concerns no range of `new`. -/
theorem passCalls_old (adding : Bool) (old : FlatView) {new : FlatView}
    (alone : ∀ n ∈ new, flatrangeEqual o n = false) : passCalls adding (o :: old) new =
      (if ¬ adding then [.rangeDel o] else []) ++ passCalls adding old new := by
  cases adding with
  | false =>
    show deletions _ _ = .rangeDel o :: deletions _ _
    unfold deletions
    rw [filter_cons_of_pos (by simpa using alone), map_cons]
  | true =>
    refine flatMap_congr fun n hn => ?_
    unfold additionCalls
    rw [find?_cons_of_neg (by simp [alone n hn])]

/-- A range of `new` without an equal one is added, and concerns no range of `old`. -/
theorem passCalls_new (adding : Bool) {old : FlatView} (new : FlatView)
    (alone : ∀ o ∈ old, flatrangeEqual o n = false) : passCalls adding old (n :: new) =
      (if adding then [.rangeAdd n] else []) ++ passCalls adding old new := by
  cases adding with
  | false =>
    refine congrArg (map _) (filter_congr fun o ho => ?_)
    simp [alone o ho]
  | true =>
    have none : old.find? (flatrangeEqual · n) = none := by
      rw [find?_eq_none]
      intro o ho
      simp [alone o ho]
    show additions _ _ = _
    rw [additions, flatMap_cons, additionCalls, none]
    rfl

/-- Equal ranges concern no others. -/
theorem passCalls_both (adding : Bool) (equal : flatrangeEqual o n = true)
    (aloneOld : ∀ n ∈ new, flatrangeEqual o n = false)
    (aloneNew : ∀ o ∈ old, flatrangeEqual o n = false) :
    passCalls adding (o :: old) (n :: new) =
      (if adding then logCalls o n else []) ++ passCalls adding old new := by
  cases adding with
  | false =>
    rw [← (passCalls_new false new aloneNew).trans (nil_append _)]
    show deletions _ _ = deletions _ _
    rw [deletions, filter_cons_of_neg (by simp [equal]), deletions]
  | true =>
    have first : (o :: old).find? (flatrangeEqual · n) = some o := find?_cons_of_pos equal
    rw [← (passCalls_old true old aloneOld).trans (nil_append _)]
    show additions _ _ = _
    rw [additions, flatMap_cons, additionCalls, first]
    rfl

/-- Each range that is passed is behind both cursors. -/
theorem pass_eq (adding : Bool) {rounds : Nat} (hold : Ascending old) (hnew : Ascending new)
    (enough : old.length + new.length < rounds) :
    addressSpaceUpdateTopologyPass adding rounds old new = .ok (passCalls adding old new) := by
  induction rounds generalizing old new with
  | zero => omega
  | succ rounds ih =>
    cases old with
    | nil =>
      cases new with
      | nil => cases adding <;> rfl
      | cons n new =>
        rw [addressSpaceUpdateTopologyPass, ih hold hnew.of_cons (by simp at enough ⊢; omega),
          passCalls_new adding new (forall_mem_nil _)]
        rfl
    | cons o old =>
      cases new with
      | nil =>
        rw [addressSpaceUpdateTopologyPass, ih hold.of_cons hnew (by simp at enough; omega),
          passCalls_old adding old (forall_mem_nil _)]
        rfl
      | cons n new =>
        rw [addressSpaceUpdateTopologyPass]
        split
        · -- `o` starts before all of `new`, or only at the start of `n`, which differs
          rename_i first
          have differs : flatrangeEqual o n = false := by
            obtain lt | ⟨_, differs⟩ := first
            · exact not_equal_of_start (by omega)
            · simpa using differs
          have alone : ∀ m ∈ n :: new, flatrangeEqual o m = false :=
            forall_mem_cons.mpr ⟨differs, fun m hm => (hnew.apart (by omega) m hm).1⟩
          rw [ih hold.of_cons hnew (by simp at enough ⊢; omega), passCalls_old adding old alone]
          rfl
        · split
          · rename_i _ equal
            have start := congrArg AddrRange.start (flatrangeEqual_iff.mp equal).2.1
            rw [ih hold.of_cons hnew.of_cons (by simp at enough; omega),
              passCalls_both adding equal (fun m hm => (hnew.apart (Int.le_of_eq start) m hm).1)
                fun p hp => (hold.apart (Int.le_of_eq start.symm) p hp).2]
            rfl
          · -- `n` starts before all of `old`
            rename_i later differs
            have le : n.addr.start ≤ o.addr.start := by
              by_contra lt
              exact later (.inl (by omega))
            have alone : ∀ p ∈ o :: old, flatrangeEqual p n = false :=
              forall_mem_cons.mpr
                ⟨by simpa using differs, fun p hp => (hold.apart le p hp).2⟩
            rw [ih hold hnew.of_cons (by simp at enough ⊢; omega), passCalls_new adding new alone]
            rfl

/-! ## The physical map -/

/-- What the listener knows of an address: the region, the offset in it, how it may
be accessed, and whether accesses are logged. -/
structure Cell where
  mr : Nat
  offset : Int
  readable : Bool
  readonly : Bool
  logged : Bool
  deriving DecidableEq, Repr

abbrev PhysMap := Int → Option Cell

def FlatRange.cell (r : FlatRange) (a : Int) : Cell :=
  ⟨r.mr, r.offsetInRegion + (a - r.addr.start), r.readable, r.readonly, r.dirtyLogMask ≠ 0⟩

/-- The map that holds a view. -/
def FlatView.holding (view : FlatView) : PhysMap := fun a =>
  (view.find? fun r => r.addr.contains a).map (·.cell a)

def TopologyCall.range : TopologyCall → AddrRange
  | .rangeDel fr | .rangeAdd fr | .logStart fr | .logStop fr => fr.addr

/-- A deleted range is unassigned. -/
def TopologyCall.apply (m : PhysMap) (call : TopologyCall) : PhysMap := fun a =>
  if call.range.contains a then
    match call with
    | .rangeDel _ => none
    | .rangeAdd fr => some (fr.cell a)
    | .logStart _ => (m a).map ({ · with logged := true })
    | .logStop _ => (m a).map ({ · with logged := false })
  else m a

/-- No address is in two ranges. -/
def Disjoint (view : FlatView) : Prop :=
  view.Pairwise fun r s => ∀ a, ¬ (r.addr.contains a = true ∧ s.addr.contains a = true)

variable {m : PhysMap}

/-- Calls for other ranges leave an address alone. -/
theorem foldl_apply_away (away : ∀ call ∈ calls, call.range.contains a = false) (m : PhysMap) :
    calls.foldl TopologyCall.apply m a = m a := by
  induction calls generalizing m with
  | nil => rfl
  | cons call calls ih =>
    rw [foldl_cons, ih fun c hc => away c (.tail _ hc)]
    exact if_neg (by simp [away call mem_cons_self])

/-- What calls do at an address depends on the map at that address alone. -/
theorem foldl_apply_congr {m' : PhysMap} (h : m a = m' a) :
    calls.foldl TopologyCall.apply m a = calls.foldl TopologyCall.apply m' a := by
  induction calls generalizing m m' with
  | nil => exact h
  | cons call calls ih => exact ih (by simp [TopologyCall.apply, h])

theorem foldl_apply_deletions {rs : List FlatRange} (m : PhysMap) :
    (rs.map TopologyCall.rangeDel).foldl TopologyCall.apply m a =
      if rs.any fun r => r.addr.contains a then none else m a := by
  induction rs generalizing m with
  | nil => rfl
  | cons r rs ih =>
    rw [map_cons, foldl_cons, ih]
    by_cases h : r.addr.contains a = true <;> simp [TopologyCall.apply, TopologyCall.range, h]

theorem Disjoint.unique (h : Disjoint view) {s : FlatRange} (hr : r ∈ view) (hs : s ∈ view)
    (har : r.addr.contains a = true) (has : s.addr.contains a = true) : r = s := by
  let Apart : FlatRange → FlatRange → Prop := fun r s =>
    ∀ a, ¬ (r.addr.contains a = true ∧ s.addr.contains a = true)
  have : Std.Symm Apart := ⟨fun r s apart a both => apart a both.symm⟩
  by_contra ne
  exact List.Pairwise.forall h hr hs ne a ⟨har, has⟩

theorem Disjoint.holding (h : Disjoint view) (hr : r ∈ view) (har : r.addr.contains a = true) :
    FlatView.holding view a = some (r.cell a) := by
  unfold FlatView.holding
  cases found : view.find? fun r => r.addr.contains a with
  | none => exact absurd har (by simpa using find?_eq_none.mp found r hr)
  | some s =>
    have hs : s.addr.contains a = true := by simpa using find?_some found
    rw [h.unique (mem_of_find?_eq_some found) hr hs har]
    rfl

/-- There is at most one call for a range of the new view, which does not delete. -/
theorem additionCalls_cases (old : FlatView) (n : FlatRange) : additionCalls old n = [] ∨
    ∃ call, additionCalls old n = [call] ∧ call.range = n.addr ∧ ∀ o, call ≠ .rangeDel o := by
  unfold additionCalls logCalls
  split
  · exact .inr ⟨_, rfl, rfl, nofun⟩
  · split
    · exact .inr ⟨_, rfl, rfl, nofun⟩
    · split
      · exact .inr ⟨_, rfl, rfl, nofun⟩
      · exact .inl rfl

theorem additionCalls_mem {call : TopologyCall} (h : call ∈ additionCalls old n) :
    call.range = n.addr ∧ ∀ o, call ≠ .rangeDel o := by
  obtain none | ⟨_, one, kind⟩ := additionCalls_cases old n
  · rw [none] at h
    cases h
  · rw [one] at h
    rwa [mem_singleton.mp h]

theorem additions_away (away : ∀ n ∈ new, n.addr.contains a = false) (m : PhysMap) :
    (additions old new).foldl TopologyCall.apply m a = m a := by
  refine foldl_apply_away (fun call hc => ?_) m
  obtain ⟨n, hn, hc⟩ := mem_flatMap.mp hc
  rw [(additionCalls_mem hc).1]
  exact away n hn

/-- Switching the logging of a range that was in the map gives the new range. -/
theorem logCalls_apply (equal : flatrangeEqual o n = true) (inside : n.addr.contains a = true)
    (hm : m a = some (o.cell a)) :
    (logCalls o n).foldl TopologyCall.apply m a = some (n.cell a) := by
  obtain ⟨mr, addr, offset, readable, readonly⟩ := flatrangeEqual_iff.mp equal
  have cell : ∀ logged, { o.cell a with logged := logged } =
      { n.cell a with logged := logged } := by
    simp [FlatRange.cell, mr, addr, offset, readable, readonly]
  unfold logCalls
  split
  · rename_i h
    have logged : { n.cell a with logged := false } = n.cell a := by simp [FlatRange.cell, h.2]
    simp [TopologyCall.apply, TopologyCall.range, inside, hm, cell, logged]
  split
  · rename_i h
    have logged : { n.cell a with logged := true } = n.cell a := by
      simpa [FlatRange.cell] using h.1
    simp [TopologyCall.apply, TopologyCall.range, inside, hm, cell, logged]
  · have logged : (o.cell a).logged = (n.cell a).logged := by
      simp only [FlatRange.cell, decide_eq_decide]
      grind
    rw [foldl_nil, hm]
    have same := cell (n.cell a).logged
    rw [← logged] at same
    exact congrArg some (same.trans (by rw [logged]))

theorem additions_apply (hnew : Disjoint new) (hn : n ∈ new) (inside : n.addr.contains a = true)
    (m : PhysMap) :
    (additions old new).foldl TopologyCall.apply m a =
      (additionCalls old n).foldl TopologyCall.apply m a := by
  obtain ⟨before, after, rfl⟩ := append_of_mem hn
  obtain ⟨-, rest, apart⟩ := pairwise_append.mp hnew
  have outside : ∀ r ∈ before, r.addr.contains a = false := by
    intro r hr
    simpa [inside] using apart r hr n mem_cons_self a
  have outside' : ∀ r ∈ after, r.addr.contains a = false := by
    intro r hr
    simpa [inside] using (pairwise_cons.mp rest).1 r hr a
  have split : additions old (before ++ n :: after) =
      additions old before ++ additionCalls old n ++ additions old after := by
    simp [additions, additionCalls]
  rw [split, foldl_append, foldl_append, additions_away outside']
  exact foldl_apply_congr (additions_away outside m)

/-- The calls take the map that holds the old view to the one that holds the new. -/
theorem calls_apply (hold : Disjoint old) (hnew : Disjoint new) :
    (deletions old new ++ additions old new).foldl TopologyCall.apply (FlatView.holding old) =
      FlatView.holding new := by
  funext a
  rw [foldl_append]
  generalize hm : (deletions old new).foldl TopologyCall.apply (FlatView.holding old) = m
  have kept : m a = if (old.filter fun o => ¬ new.any (flatrangeEqual o)).any
      (fun r => r.addr.contains a) then none else FlatView.holding old a := by
    rw [← hm]
    exact foldl_apply_deletions _
  by_cases inNew : ∃ n ∈ new, n.addr.contains a = true
  · obtain ⟨n, hn, inside⟩ := inNew
    rw [additions_apply hnew hn inside, hnew.holding hn inside]
    unfold additionCalls
    cases found : old.find? (flatrangeEqual · n) with
    | none => simp [TopologyCall.apply, TopologyCall.range, inside]
    | some o =>
      have equal : flatrangeEqual o n = true := by simpa using find?_some found
      have ho := mem_of_find?_eq_some found
      have inside' : o.addr.contains a = true := by
        rw [(flatrangeEqual_iff.mp equal).2.1]
        exact inside
      refine logCalls_apply equal inside ?_
      rw [kept, if_neg, hold.holding ho inside']
      -- only `o` has the address, and it was not deleted
      simp only [any_eq_true, mem_filter, not_exists, not_and]
      rintro r ⟨hr, unmatched⟩ hra
      rw [hold.unique hr ho hra inside'] at unmatched
      exact absurd (any_eq_true.mpr ⟨n, hn, equal⟩) (by simpa using unmatched)
  · have away : ∀ n ∈ new, n.addr.contains a = false := by
      intro n hn
      by_contra h
      exact inNew ⟨n, hn, by simpa using h⟩
    have outside : FlatView.holding new a = none := by
      unfold FlatView.holding
      rw [find?_eq_none.mpr fun n hn => by simp [away n hn]]
      rfl
    rw [additions_away away, kept, outside]
    split
    · rfl
    rename_i keeps
    unfold FlatView.holding
    rw [find?_eq_none.mpr fun o ho hoa => ?_]
    · rfl
    -- a range of `old` at the address has no equal one in `new`
    refine keeps (any_eq_true.mpr ⟨o, mem_filter.mpr ⟨ho, ?_⟩, by simpa using hoa⟩)
    simp only [decide_eq_true_eq, any_eq_true, not_exists, not_and]
    intro n hn equal
    have := away n hn
    rw [← (flatrangeEqual_iff.mp equal).2.1] at this
    simp_all

/-- No call is made twice. -/
theorem calls_nodup (hold : Ascending old) (hnew : Ascending new) :
    (deletions old new ++ additions old new).Nodup := by
  have injective : ∀ {r s : FlatRange}, r.addr.start < s.addr.start → r ≠ s := by
    rintro r s lt rfl
    exact absurd lt (Int.lt_irrefl _)
  rw [nodup_append]
  refine ⟨?_, ?_, ?_⟩
  · refine List.Nodup.map (fun r s h => TopologyCall.rangeDel.inj h) ?_
    exact (hold.imp injective).filter _
  · unfold additions
    rw [nodup_flatMap]
    refine ⟨fun n _ => ?_, hnew.imp fun {r s} lt call hr hs => ?_⟩
    · obtain none | ⟨_, one, -⟩ := additionCalls_cases old n
      · rw [none]
        exact .nil
      · rw [one]
        exact nodup_singleton _
    · rw [(additionCalls_mem hr).1.symm.trans (additionCalls_mem hs).1] at lt
      exact absurd lt (Int.lt_irrefl _)
  · intro call hd call' ha eq
    obtain ⟨o, -, rfl⟩ := mem_map.mp hd
    obtain ⟨n, -, ha⟩ := mem_flatMap.mp ha
    exact (additionCalls_mem ha).2 o eq.symm

/-- The update of the topology ends, tells the listener of each change once, what
went before what came, and so takes a map that holds the old view to the new one. -/
theorem addressSpaceUpdateTopology_calls {old new : FlatView} (ascends : Ascending old)
    (ascends' : Ascending new) (apart : Disjoint old) (apart' : Disjoint new) :
    addressSpaceUpdateTopology old new = .ok (deletions old new ++ additions old new) ∧
      (deletions old new ++ additions old new).Nodup ∧
      (deletions old new ++ additions old new).foldl TopologyCall.apply
        (FlatView.holding old) = FlatView.holding new := by
  refine ⟨?_, calls_nodup ascends ascends', calls_apply apart apart'⟩
  unfold addressSpaceUpdateTopology
  rw [pass_eq false ascends ascends' (by omega), pass_eq true ascends ascends' (by omega)]
  rfl

/-- A range grows while the logging of another is switched on. -/
theorem addressSpaceUpdateTopology_grown : let shared : FlatRange := ⟨2, 0, ⟨8, 4⟩, 0, true, false⟩
    let logged := { shared with dirtyLogMask := 1 }
    let small : FlatRange := ⟨1, 0, ⟨0, 4⟩, 0, true, false⟩
    let large := { small with addr := ⟨0, 8⟩ }
    addressSpaceUpdateTopology [small, shared] [large, logged] =
        .ok [.rangeDel small, .rangeAdd large, .logStart logged] ∧
      [TopologyCall.rangeDel small, .rangeAdd large, .logStart logged].foldl
        TopologyCall.apply (FlatView.holding [small, shared]) =
          FlatView.holding [large, logged] := by
  intro shared logged small large
  have apart : ∀ r s : FlatRange, r.addr.end ≤ s.addr.start → Disjoint [r, s] := by
    intro r s le
    refine List.pairwise_pair.mpr fun a both => ?_
    have before := (of_decide_eq_true both.1).2
    have behind := (of_decide_eq_true both.2).1
    omega
  have calls : addressSpaceUpdateTopology [small, shared] [large, logged] = _ ∧ _ ∧ _ :=
    addressSpaceUpdateTopology_calls (by decide) (by decide) (apart _ _ (by decide))
      (apart _ _ (by decide))
  exact ⟨calls.1, calls.2.2⟩

end QemuStm32.Memory
