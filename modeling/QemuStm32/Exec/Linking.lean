import QemuStm32.Exec.BlockJumps

/-!
# Linking blocks

* `Links.wellLinked`: a new block joins the lists;
* `tbAddJump_linked`: a jump joins the list of the block it is patched to.
-/

namespace QemuStm32.Tb

open Runs SlotLists Circles Function List
open Function (update)

section
variable {k n : Nat} {s : State}

/-! ## New first elements -/

section
variable {ι α : Type} [DecidableEq ι] [DecidableEq α] {m : Pointers ι α} {i j : ι} {a : α}
variable {l : List α}

theorem push_here (h : m.Hangs (.head i) l) (nodup : l.Nodup) (fresh : a ∉ l) :
    (push m i a).Hangs (.head i) (a :: l) := by
  have whole : m.Hangs (.head i) ([] ++ l) := h
  exact whole.insert nodup (fun _ _ => nofun) fresh nofun

theorem push_other (h : m.Hangs (.head j) l) (ne : j ≠ i) (fresh : a ∉ l) :
    (push m i a).Hangs (.head j) l := by
  refine h.congr (update_of_ne ne ..) fun b mem => ?_
  exact update_of_ne (ne_of_mem_of_not_mem mem fresh) ..

end

variable {f : Nat → List Node} {x : Node} {t : Nat}

theorem mem_update_cons {i j : Nat} {y : Node} :
    y ∈ update f i (x :: f i) j ↔ y ∈ f j ∨ y = x ∧ i = j := by
  by_cases this : j = i
  · rw [this]
    simp [or_comm]
  · rw [update_of_ne this]
    simp [Ne.symm this]

/-- The lists of all pages with one more entry. -/
theorem PageLists.push {m : Pointers Nat Node} (lists : PageLists m f) (i : Nat)
    (fresh : ∀ j, x ∉ f j) : PageLists (Tb.push m i x) (update f i (x :: f i)) := by
  refine ⟨(forall_update_iff f fun j l => (Tb.push m i x).Hangs (.head j) l).mpr
      ⟨push_here (lists.hangs i) (lists.nodup i) (fresh i),
        fun j ne => push_other (lists.hangs j) ne (fresh j)⟩,
    (forall_update_iff f fun _ l => l.Nodup).mpr
      ⟨nodup_cons.mpr ⟨fresh i, lists.nodup i⟩, fun j _ => lists.nodup j⟩, fun j j' y h h' => ?_⟩
  · obtain old | ⟨rfl, here⟩ := mem_update_cons.mp h
    · obtain old' | ⟨rfl, -⟩ := mem_update_cons.mp h'
      · exact lists.apart j j' y old old'
      · exact absurd old (fresh j)
    · obtain old' | ⟨-, here'⟩ := mem_update_cons.mp h'
      · exact absurd old' (fresh j')
      · exact here.symm.trans here'

/-! ## A new block -/

/-- The flags after a page got a block; `first` is whether it had one before. -/
def protectedFlags (first : Option Node) (i : Nat) (physDirty : Nat → Byte) : Nat → Byte :=
  match first with
  | some _ => physDirty
  | none => update physDirty i (physDirty i &&& ~~~codeDirtyFlag)

theorem tbAllocPage_eq (k : Nat) (x : Node) (pageAddr : Nat) (s : State) :
    tbAllocPage k x pageAddr s = { s with
      pages := push s.pages (pageAddr / 2 ^ k) x
      codeBitmap := update s.codeBitmap (pageAddr / 2 ^ k) none
      codeWriteCount := update s.codeWriteCount (pageAddr / 2 ^ k) 0
      physDirty := protectedFlags (s.pages.first (pageAddr / 2 ^ k)) (pageAddr / 2 ^ k)
        s.physDirty } := by
  unfold tbAllocPage
  dsimp only
  cases s.pages.first (pageAddr / 2 ^ k) <;> rfl

/-- The block as `tb_link_page` completes it. -/
def placed (k physPc : Nat) (physPage2 : Option Nat) (b : TranslationBlock) : TranslationBlock :=
  { b with page0 := physPc / 2 ^ k * 2 ^ k, page1 := physPage2 }

/-- The lists of pages with the entries of a new block. -/
def linkedPages (k tb physPc : Nat) (physPage2 : Option Nat) (m : Pointers Nat Node) :
    Pointers Nat Node :=
  match physPage2 with
  | some addr => push (push m (physPc / 2 ^ k) (tb, 0)) (addr / 2 ^ k) (tb, 1)
  | none => push m (physPc / 2 ^ k) (tb, 0)

/-- What `tb_link_page` does to the lists. -/
structure Links (k tb physPc : Nat) (physPage2 : Option Nat) (s s' : State) : Prop where
  tbs : s'.tbs = update s.tbs tb (placed k physPc physPage2 (s.tbs tb))
  live : s'.live = update s.live tb true
  hash : s'.hash = push s.hash (tbPhysHashFunc physPc) tb
  pages : s'.pages = linkedPages k tb physPc physPage2 s.pages
  jmp : s'.jmp = update (update (update s.jmp (.head tb)
    (some (.head tb))) (.after (tb, 0)) none) (.after (tb, 1)) none
  reset : ∀ x, x.1 = tb → (s.tbs tb).hasJump x.2 = true → s'.target x = none
  target : ∀ x, x.1 ≠ tb → s'.target x = s.target x
  cache : s'.tbJmpCache = s.tbJmpCache
  bitmap : ∀ i tab, s'.codeBitmap i = some tab → s.codeBitmap i = some tab ∧
    physPc / 2 ^ k ≠ i ∧ ∀ addr, physPage2 = some addr → addr / 2 ^ k ≠ i

theorem tbResetJump_target (x y : Node) (s : State) :
    (tbResetJump x s).target y =
      if y = x ∧ (s.tbs x.1).hasJump x.2 = true then none else s.target y := by
  unfold tbResetJump
  split
  · rename_i jump
    dsimp only
    rw [update_apply]
    simp [jump]
  · rename_i noJump
    simp [noJump]

theorem tbResetJump_eq (x : Node) (s : State) :
    tbResetJump x s = { s with target := (tbResetJump x s).target } := by
  unfold tbResetJump
  split <;> rfl

theorem resets_eq (tb : Nat) (s : State) :
    tbResetJump (tb, 1) (tbResetJump (tb, 0) s) = { s with
      target := fun x =>
        if x.1 = tb ∧ (s.tbs tb).hasJump x.2 = true then none else s.target x } := by
  have targets : (tbResetJump (tb, 1) (tbResetJump (tb, 0) s)).target = fun x =>
      if x.1 = tb ∧ (s.tbs tb).hasJump x.2 = true then none else s.target x := by
    funext x
    obtain ⟨t, m⟩ := x
    have same : (tbResetJump (tb, 0) s).tbs = s.tbs := by rw [tbResetJump_eq]
    rw [tbResetJump_target, tbResetJump_target, same]
    match m with
    | 0 => simp
    | 1 => simp
  rw [← targets, tbResetJump_eq (tb, 1), tbResetJump_eq (tb, 0)]

/-- A bitmap that is left after that of a page was freed. -/
theorem built_of_update {f : Nat → Option (List Byte)} {i j : Nat} {tab : List Byte}
    (built : update f i none j = some tab) : i ≠ j ∧ f j = some tab := by
  by_cases this : j = i
  · rw [this, update_self] at built
    cases built
  · rw [update_of_ne this] at built
    exact ⟨Ne.symm this, built⟩

theorem tbLinkPage_links (k tb physPc : Nat) (physPage2 : Option Nat) (s : State) :
    Links k tb physPc physPage2 s (tbLinkPage k tb physPc physPage2 s) := by
  have page : physPc / 2 ^ k * 2 ^ k / 2 ^ k = physPc / 2 ^ k :=
    Nat.mul_div_cancel _ (Nat.two_pow_pos k)
  unfold tbLinkPage
  rw [resets_eq]
  cases physPage2 with
  | none =>
    simp only [tbAllocPage_eq, page, update_self]
    exact ⟨rfl, rfl, rfl, rfl, rfl, fun x same jump => if_pos ⟨same, jump⟩,
      fun x ne => if_neg fun both => ne both.1, rfl, fun i tab built =>
        ⟨(built_of_update built).2, (built_of_update built).1, nofun⟩⟩
  | some addr =>
    simp only [tbAllocPage_eq, page, update_self]
    refine ⟨rfl, rfl, rfl, rfl, rfl, fun x same jump => if_pos ⟨same, jump⟩,
      fun x ne => if_neg fun both => ne both.1, rfl, fun i tab built => ?_⟩
    obtain ⟨second, built⟩ := built_of_update built
    obtain ⟨first, built⟩ := built_of_update built
    exact ⟨built, first, fun addr' same => by cases same; exact second⟩

/-! ## What stays true -/

/-- A block is live after another one was linked. -/
theorem live_linked {tb : Nat} : update s.live tb true t = true ↔ t = tb ∨ s.live t = true := by
  by_cases this : t = tb <;> simp [this]

theorem ne_of_live {tb : Nat} (fresh : s.live tb = false) (live : s.live t = true) : t ≠ tb := by
  rintro rfl
  cases fresh.symm.trans live

theorem AtMost.linked {s' : State} {tb : Nat} (few : AtMost n s)
    (live : s'.live = update s.live tb true) : AtMost (n + 1) s' := by
  obtain ⟨l, short, mem⟩ := few
  refine ⟨tb :: l, Nat.succ_le_succ short, fun t alive => ?_⟩
  rw [live, live_linked] at alive
  obtain rfl | alive := alive
  · exact mem_cons_self
  · exact .tail _ (mem t alive)

section
variable {tb physPc : Nat} {physPage2 : Option Nat} {s' : State}

section
variable (h : Links k tb physPc physPage2 s s')
include h

theorem Links.block (ne : t ≠ tb) : s'.tbs t = s.tbs t := by rw [h.tbs, update_of_ne ne]

theorem Links.at_physPc
    (same : physPc % 2 ^ k = (s.tbs tb).pc % 2 ^ k) : (s'.tbs tb).physPc k = physPc := by
  rw [h.tbs, update_self]
  show physPc / 2 ^ k * 2 ^ k + (s.tbs tb).pc % 2 ^ k = physPc
  rw [← same]
  exact Nat.div_add_mod' ..

theorem Links.wellHashed (wl : WellLinked k s)
    (fresh : s.live tb = false) (same : physPc % 2 ^ k = (s.tbs tb).pc % 2 ^ k) (i : Nat) :
    ∃ l, s'.hash.Hangs (.head i) l ∧ l.Nodup ∧
      ∀ t, t ∈ l ↔ s'.live t = true ∧ tbPhysHashFunc ((s'.tbs t).physPc k) = i := by
  obtain ⟨l, hangs, nodup, mem⟩ := wl.hash i
  have outside : tb ∉ l := fun inside => ne_of_live fresh ((mem tb).mp inside).1 rfl
  have old : ∀ t, t ≠ tb → (t ∈ l ↔
      s'.live t = true ∧ tbPhysHashFunc ((s'.tbs t).physPc k) = i) := fun t ne => by
    rw [mem, h.live, h.block ne]
    simp [ne]
  rw [h.hash]
  by_cases this : i = tbPhysHashFunc physPc
  · subst this
    refine ⟨tb :: l, push_here hangs nodup outside, nodup_cons.mpr ⟨outside, nodup⟩, fun t => ?_⟩
    by_cases new : t = tb
    · subst new
      rw [h.live, h.at_physPc same]
      simp
    · rw [mem_cons, or_iff_right new, old t new]
  · refine ⟨l, push_other hangs this outside, nodup, fun t => ?_⟩
    by_cases new : t = tb
    · subst new
      rw [h.at_physPc same]
      exact ⟨fun inside => absurd inside outside, fun both => absurd both.2.symm this⟩
    · exact old t new

theorem Links.onPage (fresh : s.live tb = false) (x : Node) (i : Nat) : OnPage k s' x i ↔
      OnPage k s x i ∨ x = (tb, 0) ∧ physPc / 2 ^ k = i ∨
        x = (tb, 1) ∧ ∃ addr, physPage2 = some addr ∧ addr / 2 ^ k = i := by
  obtain ⟨t, m⟩ := x
  unfold OnPage
  rw [h.live]
  by_cases new : t = tb
  · subst new
    rw [h.tbs]
    have page : physPc / 2 ^ k * 2 ^ k / 2 ^ k = physPc / 2 ^ k :=
      Nat.mul_div_cancel _ (Nat.two_pow_pos k)
    match m with
    | 0 => simp [fresh, placed, TranslationBlock.pageAddr, page]
    | 1 => simp [fresh, placed, TranslationBlock.pageAddr]
  · rw [h.block new]
    simp [new]

end

theorem Paired.cons {l : List Node} (paired : Paired l) (fresh : ∀ m, (x.1, m) ∉ l) :
    Paired (x :: l) := by
  obtain ⟨t, m₀⟩ := x
  intro t' first second
  by_cases this : t' = t
  · subst this
    match m₀ with
    | 0 => exact absurd (by simpa using second) (fresh 1)
    | 1 => exact absurd (by simpa using first) (fresh 0)
  · obtain ⟨a, b, rfl⟩ := paired t' (by simpa [this] using first) (by simpa [this] using second)
    exact ⟨(t, m₀) :: a, b, rfl⟩

theorem Paired.cons_both {l : List Node} (paired : Paired l) (fresh : ∀ m, (t, m) ∉ l) :
    Paired ((t, 1) :: (t, 0) :: l) := by
  intro t' first second
  by_cases this : t' = t
  · subst this
    exact ⟨[], l, rfl⟩
  · obtain ⟨a, b, rfl⟩ := paired t' (by simpa [this] using first) (by simpa [this] using second)
    exact ⟨(t, 1) :: (t, 0) :: a, b, rfl⟩

section
variable (h : Links k tb physPc physPage2 s s')
include h

theorem Links.wellPaged (wl : WellLinked k s) (fresh : s.live tb = false) (i : Nat) :
    ∃ l, s'.pages.Hangs (.head i) l ∧ l.Nodup ∧ (∀ x, x ∈ l ↔ OnPage k s' x i) ∧ Paired l := by
  obtain ⟨f, lists, mem, paired⟩ := wl.pageLists
  have new : ∀ m j, (tb, m) ∉ f j := fun m j inside =>
    ne_of_live fresh ((mem j _).mp inside).1 rfl
  have first := lists.push (physPc / 2 ^ k) (new 0)
  have pairedFirst := (forall_update_iff f (a := physPc / 2 ^ k) fun _ l => Paired l).mpr
    ⟨(paired (physPc / 2 ^ k)).cons (x := (tb, 0)) fun m => new m _, fun j _ => paired j⟩
  simp only [h.onPage fresh, ← mem]
  rw [h.pages]
  cases physPage2 with
  | none =>
    refine ⟨_, first.hangs i, first.nodup i, fun x => ?_, pairedFirst i⟩
    rw [mem_update_cons]
    simp
  | some addr =>
    have second := first.push (addr / 2 ^ k) (x := (tb, 1)) (fun j => by
      rw [mem_update_cons]
      simp [new])
    refine ⟨_, second.hangs i, second.nodup i, fun x => ?_,
      (forall_update_iff _ fun _ l => Paired l).mpr ⟨?_, fun j _ => pairedFirst j⟩ i⟩
    · rw [mem_update_cons, mem_update_cons]
      simp [or_assoc]
    · by_cases this : addr / 2 ^ k = physPc / 2 ^ k
      · rw [this, update_self]
        exact (paired _).cons_both fun m => new m _
      · rw [update_of_ne this]
        exact (paired _).cons fun m => new m _

theorem Links.patched (fresh : s.live tb = false)
    (x : Node) (t : Nat) : Patched s' x t ↔ Patched s x t := by
  unfold Patched
  rw [h.live]
  by_cases new : x.1 = tb
  · constructor
    · rintro ⟨-, jump, there⟩
      rw [h.tbs, new, update_self] at jump
      rw [h.reset x new jump] at there
      cases there
    · rintro ⟨live, -⟩
      exact absurd new (ne_of_live fresh live)
  · rw [h.block new, h.target x new]
    simp [new]

/-- The slots of other blocks are as before. -/
theorem Links.slot {slot : JmpSlot}
    (head : slot ≠ .head tb) (after : ∀ m, slot ≠ .after (tb, m)) : s'.jmp slot = s.jmp slot := by
  rw [h.jmp, update_of_ne (after 1), update_of_ne (after 0), update_of_ne head]

theorem Links.wellLinked (wl : WellLinked k s)
    (fresh : s.live tb = false) (same : physPc % 2 ^ k = (s.tbs tb).pc % 2 ^ k) :
    WellLinked k s' where
  hash := h.wellHashed wl fresh same
  pages := h.wellPaged wl fresh
  jumps t live := by
    rw [h.live, live_linked] at live
    obtain rfl | live := live
    · refine ⟨[], ?_, nodup_nil, fun x => ?_⟩
      · have apart : ∀ m, (.head t : JmpSlot) ≠ .after (t, m) := fun m => nofun
        show s'.jmp (.head t) = some (.head t)
        rw [h.jmp, update_of_ne (apart 1), update_of_ne (apart 0), update_self]
      · rw [h.patched fresh]
        exact ⟨nofun, fun patched => absurd rfl (ne_of_live fresh (wl.patched x t patched))⟩
    · obtain ⟨l, leads, nodup, mem⟩ := wl.jumps t live
      refine ⟨l, leads.congr fun slot inside => ?_, nodup, fun x => ?_⟩
      · cases slot with
        | head t' =>
          obtain rfl := head_mem_slots.mp inside
          exact h.slot (fun e => ne_of_live fresh live (Slot.head.inj e)) fun m => nofun
        | after x =>
          have alive := ((mem x).mp (after_mem_slots.mp inside)).1
          exact h.slot nofun fun m e =>
            ne_of_live fresh alive (congrArg Prod.fst (Slot.after.inj e))
      · rw [mem, h.patched fresh]
  patched x t patched := by
    rw [h.live, live_linked]
    exact .inr (wl.patched x t ((h.patched fresh x t).mp patched))
  unpatched x live := by
    simp only [h.patched fresh]
    rw [h.live, live_linked] at live
    by_cases new : x.1 = tb
    · have none : s'.jmp (.after x) = none := by
        obtain ⟨t, m⟩ := x
        obtain rfl : t = tb := new
        rw [h.jmp]
        match m with
        | 0 => rw [update_of_ne (by simp), update_self]
        | 1 => rw [update_self]
      exact ⟨fun _ ⟨t, patched⟩ => ne_of_live fresh patched.1 new, fun _ => none⟩
    · have keeps : s'.jmp (.after x) = s.jmp (.after x) :=
        h.slot nofun fun m e => new (by cases e; rfl)
      rw [keeps]
      exact wl.unpatched x (live.resolve_left new)
  cached cpu i t found := by
    rw [h.cache] at found
    obtain ⟨live, at_⟩ := wl.cached cpu i t found
    rw [h.live, live_linked, h.block (ne_of_live fresh live)]
    exact ⟨.inr live, at_⟩

end

end

/-! ## A new jump -/

theorem tbAddJump_linked (wl : WellLinked k s) (live : s.live x.1 = true) (there : s.live t = true)
    (jump : (s.tbs x.1).hasJump x.2 = true) : WellLinked k (tbAddJump x t s) := by
  unfold tbAddJump
  cases free : s.jmp (.after x) with
  | some next => exact wl
  | none =>
    have unpatched := (wl.unpatched x live).mp free
    have patched : ∀ y t', Patched { s with target := update s.target x (some t) } y t' ↔
        y = x ∧ t' = t ∨ Patched s y t' := by
      intro y t'
      by_cases this : y = x
      · subst this
        have old : ¬Patched s y t' := fun p => unpatched ⟨t', p⟩
        rw [or_iff_left old]
        unfold Patched
        simp [live, jump, eq_comm]
      · unfold Patched
        simp [this]
    obtain ⟨l, leads, nodup, mem⟩ := wl.jumps t there
    have outside : ∀ {t' : Nat} {l' : List Node}, (∀ y, y ∈ l' ↔ Patched s y t') →
        (.after x : JmpSlot) ∉ (.head t') :: l'.map .after := fun mem' inside =>
      unpatched ⟨_, (mem' x).mp (after_mem_slots.mp inside)⟩
    refine ⟨wl.hash, wl.pages, fun t' live' => ?_, fun y t' p => ?_, fun y live' => ?_, wl.cached⟩
    · by_cases this : t' = t
      · subst this
        refine ⟨x :: l, leads.push (outside mem) (nodup_cons.mp (slots_nodup t' nodup)).1,
          nodup_cons.mpr ⟨fun inside => unpatched ⟨t', (mem x).mp inside⟩, nodup⟩, fun y => ?_⟩
        rw [mem_cons, mem]
        refine Iff.trans ?_ (patched y t').symm
        simp
      · obtain ⟨l', leads', nodup', mem'⟩ := wl.jumps t' live'
        refine ⟨l', leads'.congr fun slot inside => ?_, nodup', fun y => ?_⟩
        · have notHead : slot ≠ .head t := by
            rintro rfl
            exact this (head_mem_slots.mp inside).symm
          dsimp only
          rw [update_of_ne notHead, update_of_ne (ne_of_mem_of_not_mem inside (outside mem'))]
        · rw [mem']
          refine Iff.trans ?_ (patched y t').symm
          simp [this]
    · obtain ⟨-, rfl⟩ | p := (patched y t').mp p
      · exact there
      · exact wl.patched y t' p
    · have apart : (.after y : JmpSlot) ≠ .head t := nofun
      have goal : (∃ t', Patched { s with target := update s.target x (some t) } y t') ↔
          y = x ∨ ∃ t', Patched s y t' := by
        simp only [patched, exists_or, exists_and_left, exists_eq, and_true]
      show update (update s.jmp (.after x) (s.jmp (.head t))) (.head t)
        (some (.after x)) (.after y) = none ↔ ¬∃ t', Patched { s with
          target := update s.target x (some t) } y t'
      rw [goal, update_of_ne apart]
      by_cases this : y = x
      · subst this
        rw [update_self]
        exact ⟨fun none => absurd none (leads.full mem_cons_self), fun no => absurd (.inl rfl) no⟩
      · rw [update_of_ne fun same => this (by cases same; rfl), wl.unpatched y live']
        simp [this]

end

end QemuStm32.Tb
