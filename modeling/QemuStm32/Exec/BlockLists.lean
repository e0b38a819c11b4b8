import QemuStm32.Exec.Blocks

/-!
# The lists that translation blocks are in

* `WellLinked`: what holds between calls;
* `removeFirst_spec`, `removeFirst_missing`: taking an element out of a list;
* `leavePages_spec`: a block leaves the lists of its pages.
-/

namespace QemuStm32.Tb

open Runs SlotLists Circles
open Function (forall_update_iff update update_apply update_of_ne)

/-- The two entries of a block that is on a page twice come one after the other. -/
def Paired (l : List Node) : Prop :=
  ∀ tb, (tb, 0) ∈ l → (tb, 1) ∈ l → ∃ a b, l = a ++ (tb, 1) :: (tb, 0) :: b

/-- A page of a live block, by its number. -/
def OnPage (k : Nat) (s : State) (x : Node) (i : Nat) : Prop :=
  s.live x.1 = true ∧ ∃ addr, (s.tbs x.1).pageAddr x.2 = some addr ∧ addr / 2 ^ k = i

/-- The jump of a live block is patched to the code of `tb`. -/
def Patched (s : State) (x : Node) (tb : Nat) : Prop :=
  s.live x.1 = true ∧ (s.tbs x.1).hasJump x.2 = true ∧ s.target x = some tb

structure WellLinked (k : Nat) (s : State) : Prop where
  /-- A live block is in its hash chain once, and nothing else is in a chain. -/
  hash : ∀ h, ∃ l, s.hash.Hangs (.head h) l ∧ l.Nodup ∧
    ∀ tb, tb ∈ l ↔ s.live tb = true ∧ tbPhysHashFunc ((s.tbs tb).physPc k) = h
  /-- A live block is in the list of each of its pages. -/
  pages : ∀ i, ∃ l, s.pages.Hangs (.head i) l ∧ l.Nodup ∧ (∀ x, x ∈ l ↔ OnPage k s x i) ∧ Paired l
  /-- The circular list of a live block has the jumps that are patched to it. -/
  jumps : ∀ tb, s.live tb = true → ∃ l : List Node,
    Leads s.jmp (.head tb) (l.map .after) (.head tb) ∧ l.Nodup ∧ ∀ x, x ∈ l ↔ Patched s x tb
  patched : ∀ x tb, Patched s x tb → s.live tb = true
  unpatched : ∀ x, s.live x.1 = true → (s.jmp (.after x) = none ↔ ¬∃ tb, Patched s x tb)
  cached : ∀ cpu h tb, s.tbJmpCache cpu h = some tb →
    s.live tb = true ∧ h = tbJmpCacheHashFunc k (s.tbs tb).pc

/-- At most `n` blocks are live. -/
def AtMost (n : Nat) (s : State) : Prop :=
  ∃ l : List Nat, l.length ≤ n ∧ ∀ tb, s.live tb = true → tb ∈ l

section
variable {k n rounds : Nat} {s s' : State}

/-! ## Lists are short -/

theorem AtMost.length_le (few : AtMost n s) {l : List Nat} (nodup : l.Nodup)
    (live : ∀ tb ∈ l, s.live tb = true) : l.length ≤ n := by
  obtain ⟨all, short, mem⟩ := few
  have sub : l ⊆ all := fun tb inside => mem tb (live tb inside)
  exact Nat.le_trans (List.subperm_of_subset nodup sub).length_le short

theorem AtMost.nodes_le (few : AtMost n s) {l : List Node} (nodup : l.Nodup)
    (live : ∀ x ∈ l, s.live x.1 = true) : l.length ≤ 2 * n := by
  obtain ⟨all, short, mem⟩ := few
  have sub : l ⊆ all.flatMap fun tb => [(tb, 0), (tb, 1)] := by
    rintro ⟨tb, m⟩ inside
    refine List.mem_flatMap.mpr ⟨tb, mem tb (live _ inside), ?_⟩
    match m with
    | 0 | 1 => simp
  have double : (all.flatMap fun tb => [((tb, 0) : Node), (tb, 1)]).length = 2 * all.length := by
    simp [Nat.mul_comm]
  have := (List.subperm_of_subset nodup sub).length_le
  omega

/-! ## Taking an element out of a list -/

section
variable {ι α : Type} [DecidableEq ι] [DecidableEq α] {m : Pointers ι α} {is : α → Bool} {i j : ι}
variable {l l' : List α}

theorem removeFirst_missing (is : α → Bool) (h : m.Hangs (.head i) l) (none : ∀ a ∈ l, is a = false)
    (enough : l.length < rounds) : ∃ e, removeFirst m is rounds i = .error e := by
  have all : (l.takeWhile fun a => !is a) = l :=
    List.takeWhile_eq_self_iff.mpr fun a mem => by rw [none a mem]; rfl
  have last : m.read (Pointers.endSlot (.head i) l) = .none := by
    have split : m.Hangs (.head i) (l ++ []) := by rwa [List.append_nil]
    exact split.behind
  refine ⟨.outOfBounds "tb1" 0, ?_⟩
  unfold removeFirst
  rw [h.seek is enough, all]
  dsimp only
  rw [last]

/-- What one removal does to all lists. -/
structure Removed (m m' : Pointers ι α) (is : α → Bool) (i : ι) (l : List α) : Prop where
  here : m'.Hangs (.head i) (l.eraseP is)
  others : ∀ j l', j ≠ i → m.Hangs (.head j) l' → (∀ a ∈ l', a ∉ l) → m'.Hangs (.head j) l'
  /-- Elements that match keep their links. -/
  links : ∀ a, is a = true → m'.next a = m.next a

theorem removeFirst_spec (is : α → Bool) (h : m.Hangs (.head i) l) (nodup : l.Nodup) {a : α}
    (mem : a ∈ l) (found : is a = true) (enough : l.length < rounds) :
    ∃ m', removeFirst m is rounds i = .ok m' ∧ Removed m m' is i l := by
  obtain ⟨a, l₁, l₂, before, found, split, erased⟩ := List.exists_of_eraseP mem found
  have goes : (l.takeWhile fun a => !is a) = l₁ := by
    rw [split, List.takeWhile_append_of_pos (by simpa using before),
      List.takeWhile_cons_of_neg (by simp [found]), List.append_nil]
  have cut : m.Hangs (.head i) (l₁ ++ a :: l₂) := split ▸ h
  have slot : ∀ b, b ∉ l₁ → .after b ≠ Pointers.endSlot (.head i) l₁ :=
    fun b => Pointers.after_ne_endSlot nofun
  refine ⟨m.assign (m.next a) (Pointers.endSlot (.head i) l₁), ?_, ?_, ?_, ?_⟩
  · unfold removeFirst
    rw [h.seek is enough, goes]
    dsimp only
    rw [cut.behind.1]
  · rw [erased]
    exact cut.remove (split ▸ nodup) fun b _ => nofun
  · intro j l' ne other apart
    refine other.congr (Pointers.assign_other _ _ ?_) fun b inside => ?_
    · exact Pointers.endSlot_ne (fun same => ne (Slot.head.inj same)) fun _ _ => nofun
    · refine Pointers.assign_other m (m.next a) (slot b fun mem => apart b inside ?_)
      rw [split]
      exact List.mem_append_left _ mem
  · intro b matches_
    exact Pointers.assign_other m (m.next a) (slot b fun inside => before b inside matches_)

end

/-! ## Leaving the lists of pages -/

/-- Of the elements that match, one is gone, and all the others are left. -/
theorem eraseP_keeps {α : Type} (is : α → Bool) (l : List α) :
    (l.eraseP is).countP is = l.countP is - 1 ∧
      (l.eraseP is).filter (fun a => !is a) = l.filter fun a => !is a := by
  induction l with
  | nil => exact ⟨rfl, rfl⟩
  | cons a l ih =>
    cases found : is a with
    | true => simp [found]
    | false => simpa [found] using ih

/-- The entries of a block in the list of a page. -/
def ofBlock (tb : Nat) (x : Node) : Bool := decide (x.1 = tb)

/-- The lists of all pages. -/
structure PageLists (m : Pointers Nat Node) (f : Nat → List Node) : Prop where
  hangs : ∀ i, m.Hangs (.head i) (f i)
  nodup : ∀ i, (f i).Nodup
  apart : ∀ i j x, x ∈ f i → x ∈ f j → i = j

variable {f : Nat → List Node} {tb addr i j : Nat} {x : Node} {m : Pointers Nat Node}

theorem PageLists.of_eq {g : Nat → List Node} (lists : PageLists m f)
    (same : ∀ i, f i = g i) : PageLists m g := (funext same) ▸ lists

/-- The lists after the first entry of a block was taken out of one of them. -/
def erasedAt (tb : Nat) (f : Nat → List Node) (i : Nat) : Nat → List Node :=
  update f i ((f i).eraseP (ofBlock tb))

theorem erasedAt_sub : ∀ j, x ∈ erasedAt tb f i j → x ∈ f j :=
  (forall_update_iff f fun j l => x ∈ l → x ∈ f j).mpr
    ⟨List.mem_of_mem_eraseP, fun _ _ => id⟩

theorem erasedAt_length (tb : Nat) (f : Nat → List Node) (i : Nat) :
    ∀ j, (erasedAt tb f i j).length ≤ (f j).length :=
  (forall_update_iff f fun j l => l.length ≤ (f j).length).mpr
    ⟨List.length_eraseP_le .., fun _ _ => le_rfl⟩

theorem erasedAt_count (tb : Nat) (f : Nat → List Node) (i : Nat) :
    ∀ j, (erasedAt tb f i j).countP (ofBlock tb) =
      (f j).countP (ofBlock tb) - if j = i then 1 else 0 := by
  refine (forall_update_iff f fun j l => l.countP _ = (f j).countP _ - _).mpr
    ⟨?_, fun j other => ?_⟩
  · rw [(eraseP_keeps _ _).1, if_pos rfl]
  · rw [if_neg other, Nat.sub_zero]

theorem erasedAt_filter (tb : Nat) (f : Nat → List Node) (i : Nat) : ∀ j,
    (erasedAt tb f i j).filter (fun x => !ofBlock tb x) = (f j).filter fun x => !ofBlock tb x :=
  (forall_update_iff f fun j l => l.filter _ = (f j).filter _).mpr
    ⟨(eraseP_keeps _ _).2, fun _ _ => rfl⟩

theorem PageLists.remove (lists : PageLists m f) (i tb : Nat)
    (mem : 0 < (f i).countP (ofBlock tb)) (enough : (f i).length < rounds) :
    ∃ m', removeFirst m (ofBlock tb) rounds i = .ok m' ∧ PageLists m' (erasedAt tb f i) ∧
      ∀ n, m'.next (tb, n) = m.next (tb, n) := by
  obtain ⟨x, inside, is⟩ := List.countP_pos_iff.mp mem
  obtain ⟨m', removed, here, others, links⟩ :=
    removeFirst_spec _ (lists.hangs i) (lists.nodup i) inside is enough
  refine ⟨m', removed, ⟨(forall_update_iff f fun j l => m'.Hangs (.head j) l).mpr
      ⟨here, fun j ne => ?_⟩,
    (forall_update_iff f fun _ l => l.Nodup).mpr
      ⟨(lists.nodup i).eraseP _, fun j _ => lists.nodup j⟩,
    fun j j' x h h' => lists.apart j j' x (erasedAt_sub j h) (erasedAt_sub j' h')⟩, fun n => ?_⟩
  · exact others j (f j) ne (lists.hangs j) fun a h h' => ne (lists.apart j i a h h')
  · exact links (tb, n) (by simp [ofBlock])

theorem OnPage.unique (h : OnPage k s x i) (h' : OnPage k s x j) : i = j := by
  obtain ⟨-, addr, page, rfl⟩ := h
  obtain ⟨-, addr', page', rfl⟩ := h'
  cases page.symm.trans page'
  rfl

theorem OnPage.mem_iff (on : OnPage k s x j) : OnPage k s x i ↔ i = j :=
  ⟨fun h => h.unique on, fun same => same ▸ on⟩

theorem OnPage.intro {n : Fin 2} (live : s.live tb = true)
    (page : (s.tbs tb).pageAddr n = some addr) : OnPage k s (tb, n) (addr / 2 ^ k) :=
  ⟨live, addr, page, rfl⟩

theorem WellLinked.pageLists (wl : WellLinked k s) : ∃ f, PageLists s.pages f ∧
    (∀ i x, x ∈ f i ↔ OnPage k s x i) ∧ ∀ i, Paired (f i) := by
  choose f hangs nodup mem paired using wl.pages
  exact ⟨f, ⟨hangs, nodup, fun i j x h h' => ((mem i x).mp h).unique ((mem j x).mp h')⟩, mem,
    paired⟩

/-- How often a block is in the list of a page. -/
theorem count_ofBlock {l : List Node} (nodup : l.Nodup) (tb : Nat) :
    l.countP (ofBlock tb) =
      (if (tb, 0) ∈ l then 1 else 0) + if (tb, 1) ∈ l then 1 else 0 := by
  induction l with
  | nil => simp
  | cons x l ih =>
    rw [List.nodup_cons] at nodup
    obtain ⟨t, m⟩ := x
    by_cases this : t = tb
    · subst this
      rw [List.countP_cons_of_pos (by simp [ofBlock]), ih nodup.2]
      match m with
      | 0 => simp [nodup.1, Nat.add_comm]
      | 1 => simp [nodup.1]
    · rw [List.countP_cons_of_neg (by simp [ofBlock, this]), ih nodup.2]
      simp [Ne.symm this]

/-- The lists and bitmaps of pages when a block has left the lists. -/
structure LeftPages (k tb : Nat) (f : Nat → List Node) (s : State) (pages : Pointers Nat Node)
    (codeBitmap : Nat → Option (List Byte)) : Prop where
  lists : PageLists pages fun i => (f i).filter fun x => !ofBlock tb x
  links : ∀ n, pages.next (tb, n) = s.pages.next (tb, n)
  bitmap : ∀ i, (∃ n, OnPage k s (tb, n) i) → codeBitmap i = none
  others : ∀ i, (¬∃ n, OnPage k s (tb, n) i) → codeBitmap i = s.codeBitmap i

theorem leavePage_none {n : Fin 2} (none : (s.tbs tb).pageAddr n = none) :
    leavePage k rounds tb .none n s = .ok s := by
  unfold leavePage
  rw [none]

theorem leavePage_some {n : Fin 2} (page : (s.tbs tb).pageAddr n = some addr)
    (removed : removeFirst s.pages (ofBlock tb) rounds (addr / 2 ^ k) = .ok m) :
    leavePage k rounds tb none n s =
      .ok (invalidatePageBitmap (addr / 2 ^ k) { s with pages := m }) := by
  unfold leavePage
  rw [page]
  show (removeFirst s.pages (ofBlock tb) rounds _ >>= _) >>= _ = _
  rw [removed]
  rfl

theorem leavePages_spec (lists : PageLists s.pages f) (mem : ∀ i x, x ∈ f i ↔ OnPage k s x i)
    (live : s.live tb = true) (enough : ∀ i, (f i).length < rounds) :
    ∃ pages codeBitmap codeWriteCount,
      leavePages k rounds tb none s = .ok { s with
        pages := pages, codeBitmap := codeBitmap, codeWriteCount := codeWriteCount } ∧
      LeftPages k tb f s pages codeBitmap := by
  have first : OnPage k s (tb, 0) ((s.tbs tb).page0 / 2 ^ k) := .intro live rfl
  have zero : ∀ i, (tb, 0) ∈ f i ↔ i = (s.tbs tb).page0 / 2 ^ k :=
    fun i => (mem i _).trans first.mem_iff
  have all : ∀ {g : Nat → List Node}, (∀ i, (g i).countP (ofBlock tb) = 0) →
      (∀ i, (g i).filter (fun x => !ofBlock tb x) = (f i).filter fun x => !ofBlock tb x) →
      ∀ i, g i = (f i).filter fun x => !ofBlock tb x := by
    intro g none same i
    rw [← same]
    refine (List.filter_eq_self.mpr fun x inside => ?_).symm
    simpa using List.countP_eq_zero.mp (none i) x inside
  have on : ∀ i, (∃ n, OnPage k s (tb, n) i) ↔ (tb, 0) ∈ f i ∨ (tb, 1) ∈ f i := fun i => by
    rw [Fin.exists_fin_two, mem, mem]
  have count := fun i => count_ofBlock (lists.nodup i) tb
  obtain ⟨m, removed, lists', links⟩ :=
    lists.remove ((s.tbs tb).page0 / 2 ^ k) tb
      (by rw [count, if_pos ((zero _).mpr rfl)]; omega) (enough _)
  rw [leavePages, leavePage_some rfl removed]
  cases second : (s.tbs tb).page1 with
  | none =>
    have alone : ∀ i, (tb, 1) ∉ f i := by
      intro i inside
      obtain ⟨-, addr, page, -⟩ := (mem i _).mp inside
      cases second.symm.trans page
    refine ⟨_, _, _, leavePage_none second,
      lists'.of_eq (all (fun i => ?_) (erasedAt_filter tb f _)), links, ?_, ?_⟩
    · rw [erasedAt_count, count, if_neg (alone i)]
      simp only [zero]
      omega
    · intro i at_i
      rw [on, or_iff_left (alone i), zero] at at_i
      rw [at_i]
      exact Function.update_self ..
    · intro i off
      rw [on, or_iff_left (alone i), zero] at off
      exact update_of_ne off ..
  | some addr =>
    have there : OnPage k s (tb, 1) (addr / 2 ^ k) := .intro live second
    have one : ∀ i, (tb, 1) ∈ f i ↔ i = addr / 2 ^ k := fun i => (mem i _).trans there.mem_iff
    obtain ⟨m', removed', lists'', links'⟩ :=
      lists'.remove (addr / 2 ^ k) tb
        (by
          rw [erasedAt_count, count, if_pos ((one _).mpr rfl)]
          simp only [zero]
          omega)
        (Nat.lt_of_le_of_lt (erasedAt_length ..) (enough _))
    refine ⟨_, _, _, leavePage_some (n := 1)
      (s := invalidatePageBitmap ((s.tbs tb).page0 / 2 ^ k) { s with pages := m }) second removed',
      lists''.of_eq (all (fun i => ?_) fun i => ?_),
      fun n => (links' n).trans (links n), ?_, ?_⟩
    · rw [erasedAt_count, erasedAt_count, count]
      simp only [zero, one]
      omega
    · rw [erasedAt_filter, erasedAt_filter]
    · intro i at_i
      show update (update s.codeBitmap _ none) _ none i = none
      rw [update_apply, update_apply]
      grind
    · intro i off
      rw [on, zero, one, not_or] at off
      show update (update s.codeBitmap _ none) _ none _ = _
      rw [update_of_ne off.2, update_of_ne off.1]

end

end QemuStm32.Tb
