import QemuStm32.Exec.BlockJumps

/-!
# Invalidating blocks

* `tbPhysInvalidate_spec`: a live block leaves all lists; `tbPhysInvalidate_dead`: for a block
  that is not live the hash chain is walked off its end;
-/

namespace QemuStm32.Tb

open Runs SlotLists Circles

/-- What it is for a block to have been invalidated. -/
structure Invalidated (k tb : Nat) (s s' : State) : Prop where
  linked : WellLinked k s'
  tbs : s'.tbs = s.tbs
  live : s'.live = Function.update s.live tb false
  dirty : s'.physDirty = s.physDirty
  pages : ∀ i l, s.pages.Hangs (.head i) l →
    s'.pages.Hangs (.head i) (l.filter fun x => !ofBlock tb x)
  /-- The entries of the block still point to what came next. -/
  links : ∀ n, s'.pages.next (tb, n) = s.pages.next (tb, n)
  bitmap : ∀ i, (∃ n, OnPage k s (tb, n) i) → s'.codeBitmap i = none
  others : ∀ i, (¬∃ n, OnPage k s (tb, n) i) → s'.codeBitmap i = s.codeBitmap i

section
variable {k n rounds tb : Nat} {s s' : State}

theorem mem_eraseP {α : Type} [DecidableEq α] {l : List α} (nodup : l.Nodup) (a b : α) :
    b ∈ l.eraseP (fun c => decide (c = a)) ↔ b ∈ l ∧ b ≠ a := by
  have same : l.eraseP (fun c => decide (c = a)) = l.erase a := by
    rw [List.erase_eq_eraseP]
    congr 1
    funext c
    rw [Bool.eq_iff_iff, beq_iff_eq, decide_eq_true_iff, eq_comm]
  rw [same, nodup.mem_erase_iff, and_comm]

theorem mem_filter_ofBlock {l : List Node} (tb : Nat) (x : Node) :
    x ∈ l.filter (fun x => !ofBlock tb x) ↔ x ∈ l ∧ x.1 ≠ tb := by
  simp [ofBlock]

theorem Paired.filter {l : List Node} (paired : Paired l) (tb : Nat) :
    Paired (l.filter fun x => !ofBlock tb x) := by
  intro t first second
  rw [mem_filter_ofBlock] at first second
  obtain ⟨a, b, rfl⟩ := paired t first.1 second.1
  refine ⟨a.filter fun x => !ofBlock tb x, b.filter fun x => !ofBlock tb x, ?_⟩
  have other : ofBlock tb (t, 0) = false ∧ ofBlock tb (t, 1) = false := by
    simpa [ofBlock] using first.2
  simp [other]

theorem WellLinked.jumpLists (wl : WellLinked k s) :
    JumpLists s.jmp (fun tb => s.live tb = true) (Patched s) where
  lists := wl.jumps
  on := wl.patched
  unique _ _ _ h h' := Option.some.inj (h.2.2.symm.trans h'.2.2)
  null x h none := (wl.unpatched x (h.elim fun _ p => p.1)).mp none h

/-- A block is live after another one was invalidated if it was before. -/
theorem live_invalidated {t : Nat} :
    Function.update s.live tb false t = true ↔ s.live t = true ∧ t ≠ tb := by
  by_cases this : t = tb <;> simp [this]

theorem AtMost.invalidated (few : AtMost n s) (live : s'.live = Function.update s.live tb false) :
    AtMost n s' := by
  obtain ⟨l, short, mem⟩ := few
  refine ⟨l, short, fun t alive => mem t ?_⟩
  rw [live] at alive
  exact (live_invalidated.mp alive).1

/-- The state at the end of `tb_phys_invalidate`, from its parts. -/
def without (k tb : Nat) (s : State) (hash : Pointers Nat Nat) (pages : Pointers Nat Node)
    (codeBitmap : Nat → Option (List Byte)) (codeWriteCount : Nat → Nat)
    (jmp : JmpSlot → Option JmpSlot) (target : Node → Option Nat) : State where
  tbs := s.tbs
  live := Function.update s.live tb false
  hash := hash
  pages := pages
  codeBitmap := codeBitmap
  codeWriteCount := codeWriteCount
  jmp := Function.update jmp (.head tb) (some (.head tb))
  target := target
  tbJmpCache := (forgetCached k tb s).tbJmpCache
  physDirty := s.physDirty

section
variable {hash : Pointers Nat Nat} {pages : Pointers Nat Node} {f : Nat → List Node}
variable {codeBitmap : Nat → Option (List Byte)} {codeWriteCount : Nat → Nat}
variable {jmp : JmpSlot → Option JmpSlot} {target : Node → Option Nat}

theorem onPage_without {x : Node} {i : Nat} :
    OnPage k (without k tb s hash pages codeBitmap codeWriteCount jmp target) x i ↔
      OnPage k s x i ∧ x.1 ≠ tb := by
  unfold OnPage without
  rw [live_invalidated]
  exact and_right_comm

theorem patched_without (left : LeftJumps tb (fun tb => s.live tb = true) (Patched s) s jmp target)
    {x : Node} {t : Nat} :
    Patched (without k tb s hash pages codeBitmap codeWriteCount jmp target) x t ↔
      Patched s x t ∧ x.1 ≠ tb ∧ t ≠ tb := by
  unfold Patched without
  rw [live_invalidated]
  constructor
  · rintro ⟨⟨live, ne⟩, jump, there⟩
    dsimp only at there
    by_cases this : Patched s x tb
    · cases (left.reset x ne this).symm.trans there
    · rw [left.keeps x ne this] at there
      refine ⟨⟨live, jump, there⟩, ne, fun same => this ?_⟩
      exact same ▸ ⟨live, jump, there⟩
  · rintro ⟨⟨live, jump, there⟩, ne, other⟩
    refine ⟨⟨live, ne⟩, jump, ?_⟩
    dsimp only
    rw [left.keeps x ne fun this => other (Option.some.inj (there.symm.trans this.2.2))]
    exact there

theorem wellLinked_without (wl : WellLinked k s) {chain : List Nat}
    (nodup : chain.Nodup) (mem : ∀ t, t ∈ chain ↔
      s.live t = true ∧ tbPhysHashFunc ((s.tbs t).physPc k) = tbPhysHashFunc ((s.tbs tb).physPc k))
    (hashes : Removed s.hash hash (fun t => decide (t = tb))
      (tbPhysHashFunc ((s.tbs tb).physPc k)) chain)
    (onPage : ∀ i x, x ∈ f i ↔ OnPage k s x i) (paired : ∀ i, Paired (f i))
    (lists : PageLists pages fun i => (f i).filter fun x => !ofBlock tb x)
    (left : LeftJumps tb (fun tb => s.live tb = true) (Patched s) s jmp target) :
    WellLinked k (without k tb s hash pages codeBitmap codeWriteCount jmp target) where
  hash h := by
    by_cases this : h = tbPhysHashFunc ((s.tbs tb).physPc k)
    · subst this
      refine ⟨_, hashes.here, nodup.eraseP _, fun t => ?_⟩
      rw [mem_eraseP nodup, mem, and_right_comm, ← live_invalidated]
      rfl
    · obtain ⟨l, hangs, nodup', mem'⟩ := wl.hash h
      refine ⟨l, hashes.others h l this hangs fun t inside inside' => ?_, nodup', fun t => ?_⟩
      · exact this (((mem' t).mp inside).2.symm.trans ((mem t).mp inside').2)
      · rw [mem']
        refine and_congr_left fun at_h => (live_invalidated.trans (and_iff_left ?_)).symm
        rintro rfl
        exact this at_h.symm
  pages i := by
    refine ⟨_, lists.hangs i, lists.nodup i, fun x => ?_, (paired i).filter tb⟩
    rw [mem_filter_ofBlock, onPage, onPage_without]
  jumps t live := by
    obtain ⟨live, ne⟩ := live_invalidated.mp live
    obtain ⟨l, leads, nodup', mem'⟩ := left.lists t live ne
    refine ⟨l, leads.congr fun slot inside => ?_, nodup', fun x => ?_⟩
    · refine Function.update_of_ne ?_ ..
      rintro rfl
      exact ne (head_mem_slots.mp inside).symm
    · rw [mem', patched_without left]
      exact and_congr_right fun _ => ⟨fun h => ⟨h, ne⟩, And.left⟩
  patched x t h := by
    obtain ⟨h, -, ne⟩ := (patched_without left).mp h
    exact live_invalidated.mpr ⟨wl.patched x t h, ne⟩
  unpatched x live := by
    obtain ⟨live, ne⟩ := live_invalidated.mp live
    have apart : (.after x : JmpSlot) ≠ .head tb := nofun
    show Function.update jmp (.head tb) (some (.head tb)) (.after x) = none ↔ _
    rw [Function.update_of_ne apart, left.null x ne, wl.unpatched x live]
    simp only [patched_without left]
    constructor
    · rintro (here | free) ⟨t, h, -, other⟩
      · exact other (wl.jumpLists.unique x t tb h here)
      · exact free ⟨t, h⟩
    · intro free
      by_cases here : Patched s x tb
      · exact .inl here
      · exact .inr fun ⟨t, h⟩ => free ⟨t, h, ne, fun same => here (same ▸ h)⟩
  cached cpu h t found := by
    have entry : s.tbJmpCache cpu h = some t ∧ ¬(h = tbJmpCacheHashFunc k (s.tbs tb).pc ∧
        s.tbJmpCache cpu h = some tb) := by
      change (if _ then _ else _) = _ at found
      split at found
      · cases found
      · rename_i stays
        exact ⟨found, stays⟩
    obtain ⟨live, same⟩ := wl.cached cpu h t entry.1
    refine ⟨live_invalidated.mpr ⟨live, ?_⟩, same⟩
    rintro rfl
    exact entry.2 ⟨same, entry.1⟩

end

theorem tbPhysInvalidate_spec (wl : WellLinked k s) (few : AtMost n s) (enough : 2 * n < rounds)
    (live : s.live tb = true) :
    ∃ s', tbPhysInvalidate k rounds tb none s = .ok s' ∧ Invalidated k tb s s' := by
  -- the hash chain
  obtain ⟨chain, hangs, nodup, mem⟩ := wl.hash (tbPhysHashFunc ((s.tbs tb).physPc k))
  have short := few.length_le nodup fun t inside => ((mem t).mp inside).1
  obtain ⟨hash, removed, hashes⟩ := removeFirst_spec (fun tb1 => decide (tb1 = tb)) hangs nodup
    ((mem tb).mpr ⟨live, rfl⟩) (decide_eq_true rfl) (show chain.length < rounds by omega)
  -- the lists of pages
  obtain ⟨f, lists, onPage, paired⟩ := wl.pageLists
  have pagesShort : ∀ i, (f i).length < rounds := fun i =>
    Nat.lt_of_le_of_lt (few.nodes_le (lists.nodup i) fun x inside => ((onPage i x).mp inside).1)
      enough
  obtain ⟨pages, codeBitmap, codeWriteCount, left, leftPages⟩ :=
    leavePages_spec (s := { s with hash := hash }) lists onPage live pagesShort
  -- the lists of jumps
  have jumpsShort : ∀ t, ∀ l : List Node, l.Nodup → (∀ x ∈ l, Patched s x t) →
      l.length < rounds := fun t l nodup all =>
    Nat.lt_of_le_of_lt (few.nodes_le nodup fun x inside => (all x inside).1) enough
  obtain ⟨jmp, target, unlinked, leftJumps⟩ :=
    leaveJumps_spec (s := forgetCached k tb { s with
        hash := hash, pages := pages, codeBitmap := codeBitmap, codeWriteCount := codeWriteCount })
      wl.jumpLists live (fun m => wl.unpatched (tb, m) live) jumpsShort
  refine ⟨without k tb s hash pages codeBitmap codeWriteCount jmp target, ?_,
    wellLinked_without wl nodup mem hashes onPage paired leftPages.lists
      ⟨leftJumps.lists, leftJumps.reset, leftJumps.keeps, leftJumps.null⟩,
    rfl, rfl, rfl, fun i l hangs => ?_, leftPages.links, leftPages.bitmap, leftPages.others⟩
  · unfold tbPhysInvalidate tbRemove
    rw [removed, ok_bind, ok_bind, left, ok_bind, unlinked]
    rfl
  · obtain rfl := (lists.hangs i).unique hangs
    exact leftPages.lists.hangs i

theorem tbPhysInvalidate_dead (wl : WellLinked k s) (few : AtMost n s) (enough : 2 * n < rounds)
    (dead : s.live tb = false) (pageAddr : Option Nat) :
    ∃ e, tbPhysInvalidate k rounds tb pageAddr s = .error e := by
  obtain ⟨chain, hangs, nodup, mem⟩ := wl.hash (tbPhysHashFunc ((s.tbs tb).physPc k))
  have short := few.length_le nodup fun t inside => ((mem t).mp inside).1
  obtain ⟨e, missing⟩ := removeFirst_missing (fun tb1 => decide (tb1 = tb)) hangs
    (fun t inside => decide_eq_false fun same => by
      rw [same, mem, dead] at inside
      cases inside.1) (show chain.length < rounds by omega)
  refine ⟨e, ?_⟩
  unfold tbPhysInvalidate tbRemove
  rw [missing]
  rfl

end

end QemuStm32.Tb
