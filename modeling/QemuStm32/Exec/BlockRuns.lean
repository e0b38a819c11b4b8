import QemuStm32.Exec.CodeBitmap
import QemuStm32.Exec.Linking
import QemuStm32.Exec.Sweep

/-!
# Runs of the translation block structures

* `countWrite_spec`, `range_spec`: what `tb_invalidate_phys_page_range` does in a state with
  good lists;
* `step_spec`: the same for each call;
* `wellLinked_iff`: the lists stay good exactly as long as no call invalidates a block twice.
-/

namespace QemuStm32.Tb

open Runs SlotLists Circles
open Function (update update_apply update_of_ne update_self)

section
variable {k n rounds start end_ : Nat} {s s' : State} {isCpuWriteAccess : Bool}

/-- The lists do not depend on bitmaps, counters and dirty flags. -/
theorem WellLinked.notes (wl : WellLinked k s) (codeBitmap : Nat → Option (List Byte))
    (codeWriteCount : Nat → Nat) (physDirty : Nat → Byte) : WellLinked k { s with
      codeBitmap := codeBitmap, codeWriteCount := codeWriteCount, physDirty := physDirty } :=
  ⟨wl.hash, wl.pages, wl.jumps, wl.patched, wl.unpatched, wl.cached⟩

/-- The bitmap of a page has at least the bytes that the blocks on it cover. -/
def Bitmapped (k : Nat) (s : State) : Prop :=
  ∀ i tab, s.codeBitmap i = some tab → 8 * tab.length = 2 ^ k ∧
    ∀ x, OnPage k s x i → ∀ j, Covers k s x j → bit tab j = true

/-! ## Invalidation of a range -/

theorem countWrite_spec (wide : 3 ≤ k) (wl : WellLinked k s) (few : AtMost n s)
    (enough : 2 * n < rounds) (i : Nat) (isCpuWriteAccess : Bool) :
    ∃ codeBitmap codeWriteCount, countWrite k rounds i isCpuWriteAccess s = .ok { s with
        codeBitmap := codeBitmap, codeWriteCount := codeWriteCount } ∧
      (Bitmapped k s → Bitmapped k { s with codeBitmap := codeBitmap }) := by
  unfold countWrite
  cases built : s.codeBitmap i with
  | some tab => exact ⟨_, _, rfl, id⟩
  | none =>
    dsimp only
    split
    · obtain ⟨l, hangs, nodup, mem, -⟩ := wl.pages i
      have short := few.nodes_le nodup fun x inside => ((mem x).mp inside).1
      have size : 8 * (List.replicate (2 ^ k / 8) (0 : Byte)).length = 2 ^ k := by
        rw [List.length_replicate]
        exact Nat.mul_div_cancel' (Nat.pow_dvd_pow 2 wide)
      obtain ⟨tab, loop, length, bits⟩ := buildLoop_spec (s := { s with
        codeWriteCount := update s.codeWriteCount i (s.codeWriteCount i + 1) })
        hangs (show l.length ≤ rounds by omega) size
      refine ⟨update s.codeBitmap i (some tab),
        update s.codeWriteCount i (s.codeWriteCount i + 1), ?_,
        fun bitmapped j tab' found => ?_⟩
      · unfold buildPageBitmap
        rw [show s.pages.first i = l.head? from hangs.read_eq, loop, ok_bind]
      · dsimp only at found
        by_cases this : j = i
        · subst this
          rw [update_self] at found
          cases found
          exact ⟨length ▸ size, fun x on b covers =>
            (bits b).mpr (.inr ⟨x, (mem x).mpr on, covers⟩)⟩
        · rw [update_of_ne this] at found
          exact bitmapped j tab' found
    · exact ⟨_, _, rfl, id⟩

/-- A block both of whose parts are on the page and hit. -/
def Twice (k : Nat) (s : State) (start end_ : Nat) : Prop :=
  ∃ tb, OnPage k s (tb, 0) (start / 2 ^ k) ∧ OnPage k s (tb, 1) (start / 2 ^ k) ∧
    Hit k s start end_ (tb, 0) ∧ Hit k s start end_ (tb, 1)

/-- A block with a part on the page that is hit. -/
def HitOn (k : Nat) (s : State) (start end_ tb : Nat) : Prop :=
  ∃ m, OnPage k s (tb, m) (start / 2 ^ k) ∧ Hit k s start end_ (tb, m)

/-- What `tb_invalidate_phys_page_range` does. -/
structure Ranged (k start end_ : Nat) (isCpuWriteAccess : Bool) (s s' : State) : Prop where
  linked : WellLinked k s'
  tbs : s'.tbs = s.tbs
  live : ∀ tb, s'.live tb = true ↔ s.live tb = true ∧ ¬HitOn k s start end_ tb
  bitmap : Bitmapped k s → Bitmapped k s'
  dirty : ∀ i, s'.physDirty i = s.physDirty i ∨
    isCpuWriteAccess = true ∧ (∀ x, ¬OnPage k s' x i) ∧
      s'.physDirty i = s.physDirty i ||| codeDirtyFlag

/-- A bitmap may stay while the page gets no new code. -/
theorem Bitmapped.of (bitmapped : Bitmapped k s)
    (keeps : ∀ i tab, s'.codeBitmap i = some tab → s.codeBitmap i = some tab ∧
      ∀ x, OnPage k s' x i → OnPage k s x i ∧ s'.tbs x.1 = s.tbs x.1) : Bitmapped k s' := by
  intro i tab found
  obtain ⟨before, keeps⟩ := keeps i tab found
  obtain ⟨size, covered⟩ := bitmapped i tab before
  refine ⟨size, fun x on j covers => ?_⟩
  obtain ⟨on, same⟩ := keeps x on
  unfold Covers at covers
  rw [same] at covers
  exact covered x on j covers

theorem Bitmapped.swept {gone : Nat → Prop} (bitmapped : Bitmapped k s) (h : Swept k gone s s') :
    Bitmapped k s' := by
  refine bitmapped.of fun i tab found => ⟨(h.bitmap i tab found).1, fun x on => ?_⟩
  unfold OnPage at on
  rw [h.tbs, h.live] at on
  exact ⟨⟨on.1.1, on.2⟩, by rw [h.tbs]⟩

theorem Bitmapped.forget (bitmapped : Bitmapped k s) (i : Nat) :
    Bitmapped k (invalidatePageBitmap i s) := by
  intro j tab found
  exact bitmapped j tab (built_of_update found).2

theorem range_spec (wide : 3 ≤ k) (wl : WellLinked k s) (few : AtMost n s)
    (enough : 2 * n < rounds) (isCpuWriteAccess : Bool) :
    FailsIff (Twice k s start end_) (Ranged k start end_ isCpuWriteAccess s)
      (tbInvalidatePhysPageRange k rounds start end_ isCpuWriteAccess s) := by
  obtain ⟨codeBitmap, codeWriteCount, counted, bitmaps⟩ :=
    countWrite_spec wide wl few enough (start / 2 ^ k) isCpuWriteAccess
  obtain ⟨l, w, first⟩ := Walking.ofFirst (s := { s with
    codeBitmap := codeBitmap, codeWriteCount := codeWriteCount }) (wl.notes _ _ _) few
    (start / 2 ^ k)
  have short : l.length ≤ rounds := by
    have := few.nodes_le w.nodup fun x inside => ((w.mem x).mp inside).1
    rw [List.nil_append] at this
    omega
  have spec : FailsIff (TwiceIn k _ start end_ l) _ _ := invalidateLoop_spec enough rounds w short
  have same : TwiceIn k s start end_ l ↔ Twice k s start end_ :=
    exists_congr fun tb => and_congr (w.mem _) (and_congr_left fun _ => w.mem _)
  unfold tbInvalidatePhysPageRange
  dsimp only
  rw [counted, ok_bind, first]
  cases loop : invalidateLoop k start end_ rounds rounds l.head? { s with
      codeBitmap := codeBitmap, codeWriteCount := codeWriteCount } with
  | error e =>
    rw [loop] at spec
    exact same.mp spec
  | ok s₁ =>
  rw [loop] at spec
  obtain ⟨once, swept⟩ := spec
  have once := mt same.mpr once
  have live : ∀ tb, s₁.live tb = true ↔ s.live tb = true ∧ ¬HitOn k s start end_ tb := by
    intro tb
    rw [swept.live]
    refine and_congr_right fun _ => not_congr ?_
    exact exists_congr fun m => and_congr_left fun _ => w.mem (tb, m)
  have bitmap : Bitmapped k s → Bitmapped k s₁ := fun bitmapped =>
    Bitmapped.swept (s := { s with codeBitmap := codeBitmap, codeWriteCount := codeWriteCount })
      (bitmaps bitmapped) swept
  rw [ok_bind]
  cases left : s₁.pages.first (start / 2 ^ k) with
  | some x =>
    exact ⟨once, swept.linked, swept.tbs, live, bitmap, fun i => .inl (by rw [swept.dirty])⟩
  | none =>
    have empty : ∀ x, ¬OnPage k s₁ x (start / 2 ^ k) := by
      intro x on
      obtain ⟨l', hangs, -, mem, -⟩ := swept.linked.pages (start / 2 ^ k)
      have nil : l'.head? = none := hangs.read_eq.symm.trans left
      rw [List.head?_eq_none_iff.mp nil] at mem
      cases (mem x).mpr on
    refine ⟨once, ?_⟩
    cases isCpuWriteAccess with
    | false =>
      exact ⟨swept.linked.notes _ _ _, swept.tbs, live, fun b => (bitmap b).forget _,
        fun i => .inl (congrFun swept.dirty i)⟩
    | true =>
      refine ⟨swept.linked.notes _ _ _, swept.tbs, live,
        fun b => fun i tab found => (bitmap b).forget _ i tab found, fun i => ?_⟩
      rw [← swept.dirty]
      by_cases this : i = start / 2 ^ k
      · subst this
        exact .inr ⟨rfl, empty, update_self ..⟩
      · exact .inl (update_of_ne this ..)

/-! ## Calls -/

/-- How the functions are called: a block that is linked is not linked already, and starts on a
page where its address puts it; jumps are added between live blocks. -/
def Allowed (k : Nat) (s : State) : Event → Prop
  | .link tb pc _ _ physPc _ => s.live tb = false ∧ physPc % 2 ^ k = pc % 2 ^ k
  | .addJump x tbNext => s.live x.1 = true ∧ s.live tbNext = true ∧
      (s.tbs x.1).hasJump x.2 = true
  | .found _ tb => s.live tb = true
  | .invalidate .. => True
  | .flush => True

/-- No block is hit twice. -/
def NotTwice (k : Nat) (s : State) : Event → Prop
  | .invalidate start end_ _ => ¬Twice k s start end_
  | _ => True

theorem AtMost.mono {m : Nat} (few : AtMost n s) (le : n ≤ m) : AtMost m s := by
  obtain ⟨l, short, mem⟩ := few
  exact ⟨l, short.trans le, mem⟩

/-- Code can be generated in a block that is not live. -/
theorem WellLinked.generated (wl : WellLinked k s) {tb : Nat} (fresh : s.live tb = false)
    (b : TranslationBlock) : WellLinked k { s with tbs := update s.tbs tb b } := by
  have same : ∀ t, s.live t = true → update s.tbs tb b t = s.tbs t :=
    fun t live => update_of_ne (ne_of_live fresh live) ..
  have patched : ∀ x t, Patched { s with tbs := update s.tbs tb b } x t ↔
      Patched s x t := by
    intro x t
    refine and_congr_right fun live => ?_
    dsimp only
    rw [same x.1 live]
  refine ⟨fun h => ?_, fun i => ?_, fun t live => ?_, fun x t h => ?_, fun x live => ?_,
    fun cpu h t entry => ?_⟩
  · obtain ⟨l, hangs, nodup, mem⟩ := wl.hash h
    refine ⟨l, hangs, nodup, fun t => (mem t).trans (and_congr_right fun live => ?_)⟩
    dsimp only
    rw [same t live]
  · obtain ⟨l, hangs, nodup, mem, paired⟩ := wl.pages i
    refine ⟨l, hangs, nodup, fun x => (mem x).trans (and_congr_right fun live => ?_), paired⟩
    dsimp only
    rw [same x.1 live]
  · obtain ⟨l, leads, nodup, mem⟩ := wl.jumps t live
    exact ⟨l, leads, nodup, fun x => (mem x).trans (patched x t).symm⟩
  · exact wl.patched x t ((patched x t).mp h)
  · exact (wl.unpatched x live).trans (not_congr (exists_congr fun t => (patched x t).symm))
  · obtain ⟨live, here⟩ := wl.cached cpu h t entry
    exact ⟨live, here.trans (congrArg (fun b => tbJmpCacheHashFunc k b.pc) (same t live).symm)⟩

theorem found_linked (wl : WellLinked k s) {tb : Nat} (live : s.live tb = true) (cpu : Nat) :
    WellLinked k { s with
      tbJmpCache := update s.tbJmpCache cpu (update (s.tbJmpCache cpu)
        (tbJmpCacheHashFunc k (s.tbs tb).pc) (some tb)) } := by
  refine ⟨wl.hash, wl.pages, wl.jumps, wl.patched, wl.unpatched, fun cpu' h t entry => ?_⟩
  dsimp only at entry
  rw [update_apply] at entry
  split at entry
  · next same =>
    subst same
    rw [update_apply] at entry
    split at entry
    · next slot =>
      cases entry
      exact ⟨live, slot⟩
    · exact wl.cached cpu' h t entry
  · exact wl.cached cpu' h t entry

/-- Without blocks all lists are good. -/
theorem wellLinked_of_empty (live : ∀ tb, s.live tb = false) (hash : ∀ h, s.hash.first h = none)
    (pages : ∀ i, s.pages.first i = none) (cache : ∀ cpu h, s.tbJmpCache cpu h = none) :
    WellLinked k s := by
  have dead : ∀ tb, ¬s.live tb = true := by simp [live]
  refine ⟨fun h => ⟨[], hash h, List.nodup_nil, fun tb => ⟨nofun, fun on => absurd on.1 (dead _)⟩⟩,
    fun i => ⟨[], pages i, List.nodup_nil, fun x => ⟨nofun, fun on => absurd on.1 (dead _)⟩, nofun⟩,
    fun tb alive => absurd alive (dead tb), fun x tb patched => absurd patched.1 (dead _),
    fun x alive => absurd alive (dead _), fun cpu h tb entry => ?_⟩
  rw [cache] at entry
  cases entry

/-- Blocks that are linked have code, on at most two pages; a second page is named by its
address. -/
def TwoPages (k : Nat) : Event → Prop
  | .link _ pc size _ _ physPage2 => 0 < size ∧ pc % 2 ^ k + size ≤ 2 * 2 ^ k ∧
      (physPage2 = none ↔ pc % 2 ^ k + size ≤ 2 ^ k) ∧
      ∀ addr, physPage2 = some addr → addr % 2 ^ k = 0
  | _ => True

/-- The same for the blocks that are live. -/
structure Spans (k : Nat) (b : TranslationBlock) : Prop where
  code : 0 < b.size
  most : b.pc % 2 ^ k + b.size ≤ 2 * 2 ^ k
  second : b.page1 = none ↔ b.pc % 2 ^ k + b.size ≤ 2 ^ k
  aligned : b.page0 % 2 ^ k = 0 ∧ ∀ addr, b.page1 = some addr → addr % 2 ^ k = 0

/-- What is left of a state after a call. -/
structure Kept (k n : Nat) (s : State) (e : Event) (t : State) : Prop where
  linked : WellLinked k t
  few : AtMost (n + 1) t
  bitmap : Bitmapped k s → Bitmapped k t
  spans : TwoPages k e → (∀ tb, s.live tb = true → Spans k (s.tbs tb)) →
    ∀ tb, t.live tb = true → Spans k (t.tbs tb)

section
variable {tb physPc : Nat} {physPage2 : Option Nat}

theorem Bitmapped.linked (bitmapped : Bitmapped k s) (h : Links k tb physPc physPage2 s s')
    (fresh : s.live tb = false) : Bitmapped k s' := by
  refine bitmapped.of fun i tab built => ?_
  obtain ⟨built, off, off'⟩ := h.bitmap i tab built
  refine ⟨built, fun x on => ?_⟩
  obtain on | ⟨-, here⟩ | ⟨-, addr, second, here⟩ := (h.onPage fresh x i).mp on
  · exact ⟨on, h.block (ne_of_live fresh on.1)⟩
  · exact absurd here off
  · exact absurd here (off' addr second)

theorem Bitmapped.generated (bitmapped : Bitmapped k s) (fresh : s.live tb = false)
    (b : TranslationBlock) : Bitmapped k { s with tbs := update s.tbs tb b } := by
  refine bitmapped.of fun i tab built => ⟨built, fun x on => ?_⟩
  have old : update s.tbs tb b x.1 = s.tbs x.1 := update_of_ne (ne_of_live fresh on.1) ..
  unfold OnPage at on
  dsimp only at on
  rw [old] at on
  exact ⟨on, old⟩

end

theorem linked_kept (wl : WellLinked k s) (few : AtMost n s)
    {tb pc size physPc : Nat} {hasJump : Fin 2 → Bool} {physPage2 : Option Nat}
    (fresh : s.live tb = false) (same : physPc % 2 ^ k = pc % 2 ^ k) :
    Kept k n s (.link tb pc size hasJump physPc physPage2) (tbLinkPage k tb physPc physPage2
      { s with
        tbs := update s.tbs tb
          { s.tbs tb with pc := pc, size := size, hasJump := hasJump } }) := by
  have links := tbLinkPage_links k tb physPc physPage2 { s with
    tbs := update s.tbs tb { s.tbs tb with pc := pc, size := size, hasJump := hasJump } }
  refine ⟨links.wellLinked (wl.generated fresh _) fresh ?_, few.linked links.live,
    fun bitmapped => (bitmapped.generated fresh _).linked links fresh, fun fits spans t live => ?_⟩
  · dsimp only
    rw [update_self]
    exact same
  · rw [links.live, live_linked] at live
    by_cases new : t = tb
    · subst new
      rw [links.tbs, update_self]
      dsimp only
      rw [update_self]
      exact ⟨fits.1, fits.2.1, fits.2.2.1, Nat.mul_mod_left .., fits.2.2.2⟩
    · rw [links.block new]
      dsimp only
      rw [update_of_ne new]
      exact spans t (live.resolve_left new)

theorem Ranged.kept (h : Ranged k start end_ isCpuWriteAccess s s') (few : AtMost n s) :
    Kept k n s (.invalidate start end_ isCpuWriteAccess) s' := by
  obtain ⟨l, short, mem⟩ := few.mono (Nat.le_add_right n 1)
  refine ⟨h.linked, ⟨l, short, fun tb live => mem tb ((h.live tb).mp live).1⟩, h.bitmap,
    fun _ spans tb live => ?_⟩
  rw [h.tbs]
  exact spans tb ((h.live tb).mp live).1

theorem tbAddJump_kept (wl : WellLinked k s) (few : AtMost n s) {x : Node} {t : Nat}
    (allowed : Allowed k s (.addJump x t)) : Kept k n s (.addJump x t) (tbAddJump x t s) := by
  have linked := tbAddJump_linked wl allowed.1 allowed.2.1 allowed.2.2
  have more := few.mono (Nat.le_add_right n 1)
  unfold tbAddJump at linked ⊢
  split at linked <;> exact ⟨linked, more, id, fun _ => id⟩

section
variable (wide : 3 ≤ k) (wl : WellLinked k s) (few : AtMost n s)
include wide wl few

/-- A call that hits no block twice returns, and one that does fails. -/
theorem step_spec (enough : 2 * n < rounds) {e : Event} (allowed : Allowed k s e) :
    FailsIff (¬NotTwice k s e) (Kept k n s e) (step k rounds s e) := by
  have more := few.mono (Nat.le_add_right n 1)
  have fine : ¬¬True := not_not.mpr trivial
  cases e with
  | link tb pc size hasJump physPc physPage2 =>
    exact ⟨fine, linked_kept wl few allowed.1 allowed.2⟩
  | addJump x tbNext => exact ⟨fine, tbAddJump_kept wl few allowed⟩
  | found cpu tb => exact ⟨fine, found_linked wl allowed cpu, more, id, fun _ => id⟩
  | invalidate start end_ isCpuWriteAccess =>
    exact (range_spec wide wl few enough isCpuWriteAccess).imp not_not.symm
      fun t ranged => ranged.kept few
  | flush =>
    refine ⟨fine, ?_, ⟨[], Nat.zero_le _, nofun⟩, fun _ => nofun, fun _ _ => nofun⟩
    exact wellLinked_of_empty (fun _ => rfl) (fun _ => rfl) (fun _ => rfl) (fun _ _ => rfl)

/-- What is known of a call that returned. -/
theorem kept_of_step (enough : 2 * n < rounds) {e : Event} (allowed : Allowed k s e)
    (stepped : step k rounds s e = .ok s') : NotTwice k s e ∧ Kept k n s e s' := by
  obtain ⟨once, kept⟩ := (step_spec wide wl few enough allowed).of_ok stepped
  exact ⟨not_not.mp once, kept⟩

/-- In a run whose calls are allowed every call returns, and the lists are good in every state,
exactly if no call hits a block twice. -/
theorem wellLinked_iff_from {es : List Event} (enough : 2 * (n + es.length) < rounds)
    (allowed : StepsMeet (step k rounds) (Allowed k) s es) :
    ((∃ t, run (step k rounds) s es = .ok t) ∧ Always (step k rounds) (WellLinked k) s es) ↔
      StepsMeet (step k rounds) (NotTwice k) s es := by
  induction es generalizing s n with
  | nil => exact ⟨fun _ => trivial, fun _ => ⟨⟨s, rfl⟩, wl⟩⟩
  | cons e es ih =>
    obtain ⟨here, allowed⟩ := allowed
    rw [List.length_cons] at enough
    have enough' : 2 * n < rounds := by omega
    constructor
    · rintro ⟨⟨t, ran⟩, -, always⟩
      obtain ⟨u, stepped, ran⟩ := run_cons_ok.mp ran
      obtain ⟨once, kept⟩ := kept_of_step wide wl few enough' here stepped
      exact .cons stepped once ((ih kept.linked kept.few (by omega) (allowed u stepped)).mp
        ⟨⟨t, ran⟩, always u stepped⟩)
    · rintro ⟨once, rest⟩
      obtain ⟨u, stepped, kept⟩ := (step_spec wide wl few enough' here).ok (not_not.mpr once)
      obtain ⟨⟨t, ran⟩, always⟩ :=
        (ih kept.linked kept.few (by omega) (allowed u stepped)).mpr (rest u stepped)
      refine ⟨⟨t, run_cons_ok.mpr ⟨u, stepped, ran⟩⟩, wl, fun u' stepped' => ?_⟩
      obtain rfl : u = u' := Except.ok.inj (stepped.symm.trans stepped')
      exact always

end

end

instance (k : Nat) (s : State) : ∀ e, Decidable (Allowed k s e)
  | .link .. => instDecidableAnd
  | .addJump .. => instDecidableAnd
  | .found .. => inferInstanceAs (Decidable (_ = _))
  | .invalidate .. => .isTrue trivial
  | .flush => .isTrue trivial

theorem wellLinked_iff {k rounds : Nat} (wide : 3 ≤ k) {es : List Event}
    (enough : 2 * es.length < rounds) (allowed : StepsMeet (step k rounds) (Allowed k) initial es) :
    ((∃ t, run (step k rounds) initial es = .ok t) ∧
        Always (step k rounds) (WellLinked k) initial es) ↔
      StepsMeet (step k rounds) (NotTwice k) initial es :=
  wellLinked_iff_from (s := initial) wide
    (wellLinked_of_empty (fun _ => rfl) (fun _ => rfl) (fun _ => rfl) fun _ _ => rfl)
    ⟨[], Nat.le_refl 0, nofun⟩ (by rwa [Nat.zero_add]) allowed

/-- A block that is on a page twice, with a jump to itself and jumps to and from another one. -/
def folded : List Event :=
  [.link 0 0x3fe 4 (fun _ => true) 0x3fe (some 0), .link 1 0x500 8 (fun _ => true) 0x500 none,
    .addJump (0, 0) 0, .addJump (0, 1) 1, .addJump (1, 0) 0, .found 0 0, .found 0 1]

theorem wellLinked_folded :
    StepsMeet (step 10 100) (Allowed 10) initial (folded ++ [.invalidate 0 2 true]) ∧
    (run (step 10 100) initial (folded ++ [.invalidate 0 2 true])).isOk = true ∧
    (((∃ t, run (step 10 100) initial (folded ++ [.invalidate 0 2 true]) = .ok t) ∧
        Always (step 10 100) (WellLinked 10) initial (folded ++ [.invalidate 0 2 true])) ↔
      StepsMeet (step 10 100) (NotTwice 10) initial (folded ++ [.invalidate 0 2 true])) := by
  have allowed : StepsMeet (step 10 100) (Allowed 10) initial
      (folded ++ [.invalidate 0 2 true]) := by decide +kernel
  exact ⟨allowed, by decide +kernel, wellLinked_iff (by decide) (by decide) allowed⟩

/-- The range covers both ends of the block: it is invalidated twice, and the second time it is
not in its hash chain. -/
theorem folded_invalidated_twice :
    StepsMeet (step 10 100) (Allowed 10) initial (folded ++ [.invalidate 0 0x400 true]) ∧
    ¬∃ t, run (step 10 100) initial (folded ++ [.invalidate 0 0x400 true]) = .ok t := by
  refine ⟨by decide +kernel, fun ⟨t, ran⟩ => ?_⟩
  have failed : (run (step 10 100) initial (folded ++ [.invalidate 0 0x400 true])).isOk =
    false := by decide +kernel
  rw [ran] at failed
  cases failed

end QemuStm32.Tb
