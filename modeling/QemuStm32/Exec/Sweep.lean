import QemuStm32.Exec.Invalidation

/-!
# Invalidating the blocks of a range

`tb_invalidate_phys_page_range` reads the next entry of the list before it invalidates a block.
If that entry is the other one of the same block, the loop goes on with a block that is no
longer in any list: it finds its way back as long as the range does not hit that part too.

`invalidateLoop_spec`: exactly the blocks that the range hits are invalidated, unless both parts
of a block on the page are hit, which ends the walk in a fault.
-/

namespace QemuStm32.Tb

open Runs SlotLists Circles List

/-- A call that fails exactly if `bad`, and else ends in a state with `post`. -/
def FailsIff (bad : Prop) (post : State → Prop) : Except Fault State → Prop
  | .ok s => ¬bad ∧ post s
  | .error _ => bad

section
variable {bad bad' : Prop} {post post' : State → Prop} {r : Except Fault State}

theorem FailsIff.imp (h : FailsIff bad post r) (same : bad ↔ bad') (next : ∀ s, post s → post' s) :
    FailsIff bad' post' r := by
  cases r with
  | ok s => exact ⟨mt same.mpr h.1, next s h.2⟩
  | error e => exact same.mp h

theorem FailsIff.ok (h : FailsIff bad post r) (good : ¬bad) : ∃ s, r = .ok s ∧ post s := by
  cases r with
  | ok s => exact ⟨s, rfl, h.2⟩
  | error e => exact absurd h good

theorem FailsIff.of_ok {s : State} (h : FailsIff bad post r) (ended : r = .ok s) :
    ¬bad ∧ post s := by
  rw [ended] at h
  exact h

end

section
variable {k n rounds start end_ : Nat} {s s' : State}

/-- The entry is hit by the range. -/
def Hit (k : Nat) (s : State) (start end_ : Nat) (x : Node) : Prop :=
  hits k (s.tbs x.1) x.2 start end_ = true

/-- A block with both parts in the list and both of them hit. -/
def TwiceIn (k : Nat) (s : State) (start end_ : Nat) (l : List Node) : Prop :=
  ∃ tb, (tb, 0) ∈ l ∧ (tb, 1) ∈ l ∧ Hit k s start end_ (tb, 0) ∧ Hit k s start end_ (tb, 1)

/-- The blocks that are `gone` were invalidated. -/
structure Swept (k : Nat) (gone : Nat → Prop) (s s' : State) : Prop where
  linked : WellLinked k s'
  tbs : s'.tbs = s.tbs
  dirty : s'.physDirty = s.physDirty
  live : ∀ tb, s'.live tb = true ↔ s.live tb = true ∧ ¬gone tb
  bitmap : ∀ i tab, s'.codeBitmap i = some tab →
    s.codeBitmap i = some tab ∧ ∀ x, OnPage k s x i → ¬gone x.1

variable {gone : Nat → Prop} {tb : Nat} {s₁ : State} {l : List Node} {m : Fin 2}

theorem Swept.refl (wl : WellLinked k s) (none : ∀ tb, s.live tb = true → ¬gone tb) :
    Swept k gone s s :=
  ⟨wl, rfl, rfl, fun tb => ⟨fun live => ⟨live, none tb live⟩, And.left⟩,
    fun _ _ built => ⟨built, fun x on => none x.1 on.1⟩⟩

theorem Swept.congr {gone' : Nat → Prop} (h : Swept k gone s s')
    (same : ∀ tb, s.live tb = true → (gone tb ↔ gone' tb)) : Swept k gone' s s' := by
  refine ⟨h.linked, h.tbs, h.dirty, fun tb => ?_, fun i tab built => ?_⟩
  · rw [h.live]
    exact and_congr_right fun live => not_congr (same tb live)
  · obtain ⟨before, stays⟩ := h.bitmap i tab built
    exact ⟨before, fun x on => fun g => stays x on ((same x.1 on.1).mpr g)⟩

/-- One block first, then some others. -/
theorem Invalidated.then (h : Invalidated k tb s s₁) (h' : Swept k gone s₁ s') :
    Swept k (fun t => t = tb ∨ gone t) s s' := by
  refine ⟨h'.linked, h'.tbs.trans h.tbs, h'.dirty.trans h.dirty, fun t => ?_, fun i tab built => ?_⟩
  · rw [h'.live, h.live, live_invalidated, not_or, and_assoc]
  obtain ⟨before, stays⟩ := h'.bitmap i tab built
  have off : ¬∃ n, OnPage k s (tb, n) i := by
    intro on
    rw [h.bitmap i on] at before
    cases before
  rw [h.others i off] at before
  refine ⟨before, fun x on => ?_⟩
  rintro (same | g)
  · exact off ⟨x.2, same ▸ on⟩
  · refine stays x ⟨?_, ?_⟩ g
    · rw [h.live, live_invalidated]
      exact ⟨on.1, fun same => off ⟨x.2, same ▸ on⟩⟩
    · rw [h.tbs]
      exact on.2

/-- The loop stands before `rest` in the list of page `i`. -/
structure Walking (k n i : Nat) (s : State) (before rest : List Node) : Prop where
  linked : WellLinked k s
  few : AtMost n s
  hangs : s.pages.Hangs (.head i) (before ++ rest)
  nodup : (before ++ rest).Nodup
  mem : ∀ x, x ∈ before ++ rest ↔ OnPage k s x i
  paired : Paired (before ++ rest)

theorem Walking.ofFirst (wl : WellLinked k s) (few : AtMost n s) (i : Nat) :
    ∃ l, Walking k n i s [] l ∧ s.pages.first i = l.head? := by
  obtain ⟨l, hangs, nodup, mem, paired⟩ := wl.pages i
  exact ⟨l, ⟨wl, few, hangs, nodup, mem, paired⟩, hangs.read_eq⟩

variable {i : Nat} {before rest : List Node} {x : Node}

theorem Walking.forward (w : Walking k n i s before (x :: rest)) :
    Walking k n i s (before ++ [x]) rest := by
  have same : before ++ x :: rest = before ++ [x] ++ rest := by simp
  exact ⟨w.linked, w.few, same ▸ w.hangs, same ▸ w.nodup, same ▸ w.mem, same ▸ w.paired⟩

/-- The entries of other blocks. -/
def others (tb : Nat) (l : List Node) : List Node := l.filter fun x => !ofBlock tb x

theorem mem_others {x : Node} : x ∈ others tb l ↔ x ∈ l ∧ x.1 ≠ tb :=
  mem_filter_ofBlock tb x

theorem Walking.invalidated (w : Walking k n i s before rest) (h : Invalidated k tb s s') :
    Walking k n i s' (others tb before) (others tb rest) := by
  have split : others tb (before ++ rest) = others tb before ++ others tb rest := filter_append ..
  obtain ⟨l, hangs, nodup, mem, paired⟩ := h.linked.pages i
  obtain rfl : l = others tb before ++ others tb rest := by
    rw [← split]
    exact hangs.unique (h.pages i _ w.hangs)
  exact ⟨h.linked, w.few.invalidated h.live, hangs, nodup, mem, paired⟩

section
variable (w : Walking k n i s before (x :: rest))
include w

theorem Walking.next : s.pages.next x = rest.head? :=
  w.hangs.next_eq

theorem Walking.live : s.live x.1 = true :=
  ((w.mem x).mp (by simp)).1

/-- The entries of a block come one after the other. -/
theorem Walking.pair (differ : m ≠ x.2)
    (inside : (x.1, m) ∈ rest) : ∃ tail, rest = (x.1, m) :: tail := by
  obtain ⟨tb, m₀⟩ := x
  have here : (tb, m₀) ∈ before ++ (tb, m₀) :: rest := by simp
  have there : (tb, m) ∈ before ++ (tb, m₀) :: rest := by simp [inside]
  have nodup := w.nodup
  rw [nodup_append, nodup_cons] at nodup
  obtain ⟨-, ⟨after, -⟩, apart⟩ := nodup
  have front : (tb, m₀) ∉ before := fun mem => apart _ mem _ mem_cons_self rfl
  match m, m₀ with
  | 0, 0 => exact absurd rfl differ
  | 1, 1 => exact absurd rfl differ
  | 0, 1 =>
    obtain ⟨a, b, split⟩ := w.paired tb there here
    obtain ⟨-, -, rfl⟩ := (append_cons_inj_of_notMem front after).mp split
    exact ⟨b, rfl⟩
  | 1, 0 =>
    -- the other entry would stand before this one
    obtain ⟨a, b, split⟩ := w.paired tb here there
    have split' : before ++ (tb, 0) :: rest = (a ++ [(tb, 1)]) ++ (tb, 0) :: b := by
      rw [split, append_assoc, singleton_append]
    obtain ⟨rfl, -, rfl⟩ := (append_cons_inj_of_notMem front after).mp split'
    exact absurd rfl (apart (tb, 1) (by simp) (tb, 1) (.tail _ inside))

/-- Behind an entry come no others of its block, or just the other one. -/
theorem Walking.behind :
    others x.1 rest = rest ∨
      ∃ m tail, rest = (x.1, m) :: tail ∧ m ≠ x.2 ∧ others x.1 tail = tail := by
  have nodup := (nodup_append.mp w.nodup).2.1
  by_cases more : ∃ m, (x.1, m) ∈ rest
  · obtain ⟨m, here⟩ := more
    have differ : m ≠ x.2 := by
      rintro rfl
      exact (nodup_cons.mp nodup).1 here
    obtain ⟨tail, rfl⟩ := w.pair differ here
    refine .inr ⟨m, tail, rfl, differ, filter_eq_self.mpr fun z inside => ?_⟩
    have other : z.1 ≠ x.1 := by
      intro e
      simp only [nodup_cons] at nodup
      by_cases slot : z.2 = x.2
      · obtain rfl : z = x := Prod.ext e slot
        exact nodup.1 (.tail _ inside)
      · have : z = (x.1, m) := Prod.ext e (show z.2 = m by omega)
        exact nodup.2.1 (this ▸ inside)
    simp [ofBlock, other]
  · refine .inl (filter_eq_self.mpr fun z inside => ?_)
    have other : z.1 ≠ x.1 := fun e => more ⟨z.2, e ▸ inside⟩
    simp [ofBlock, other]

end

/-! ## The loop -/

/-- The blocks with an entry in the list that is hit. -/
def Gone (k : Nat) (s : State) (start end_ : Nat) (l : List Node) (tb : Nat) : Prop :=
  ∃ m, (tb, m) ∈ l ∧ Hit k s start end_ (tb, m)

theorem invalidateLoop_miss (w : Walking k n i s before (x :: rest))
    (miss : ¬Hit k s start end_ x) (steps : Nat) :
    invalidateLoop k start end_ rounds (steps + 1) (some x) s =
      invalidateLoop k start end_ rounds steps rest.head? s := by
  unfold Hit at miss
  rw [invalidateLoop, if_neg miss, w.next]

theorem invalidateLoop_hit (w : Walking k n i s before (x :: rest)) (enough : 2 * n < rounds)
    (hit : Hit k s start end_ x) (steps : Nat) :
    ∃ s₁, Invalidated k x.1 s s₁ ∧ invalidateLoop k start end_ rounds (steps + 1) (some x) s =
      invalidateLoop k start end_ rounds steps rest.head? s₁ := by
  unfold Hit at hit
  obtain ⟨s₁, invalidated, spec⟩ := tbPhysInvalidate_spec w.linked w.few enough w.live
  refine ⟨s₁, spec, ?_⟩
  rw [invalidateLoop, if_pos hit, invalidated, ok_bind, w.next]

/-- At an entry of a block that was invalidated before. -/
theorem invalidateLoop_dead {tail : List Node} (h : Invalidated k tb s s₁)
    (next : s.pages.next (tb, m) = tail.head?) (few : AtMost n s₁) (enough : 2 * n < rounds)
    (start end_ steps : Nat) :
    (Hit k s start end_ (tb, m) →
      ∃ e, invalidateLoop k start end_ rounds (steps + 1) (some (tb, m)) s₁ = .error e) ∧
    (¬Hit k s start end_ (tb, m) →
      invalidateLoop k start end_ rounds (steps + 1) (some (tb, m)) s₁ =
        invalidateLoop k start end_ rounds steps tail.head? s₁) := by
  unfold Hit
  rw [← h.tbs]
  constructor
  · intro hit
    have dead : s₁.live tb = false := by rw [h.live, Function.update_self]
    obtain ⟨e, fails⟩ := tbPhysInvalidate_dead h.linked few enough dead none
    refine ⟨e, ?_⟩
    rw [invalidateLoop, if_pos hit, fails]
    rfl
  · intro miss
    rw [invalidateLoop, if_neg miss, h.links, next]

theorem TwiceIn.of_tbs (same : s'.tbs = s.tbs) :
    TwiceIn k s' start end_ l ↔ TwiceIn k s start end_ l := by
  unfold TwiceIn Hit
  rw [same]

/-- Behind a block that was hit the others are judged as before. -/
theorem gone_behind (hit : Hit k s start end_ (tb, m)) (same : s₁.tbs = s.tbs) (t : Nat) :
    (t = tb ∨ Gone k s₁ start end_ (others tb l) t) ↔ Gone k s start end_ ((tb, m) :: l) t := by
  unfold Gone Hit
  rw [same]
  constructor
  · rintro (rfl | ⟨m', inside, hit'⟩)
    · exact ⟨m, mem_cons_self, hit⟩
    · exact ⟨m', .tail _ (mem_others.mp inside).1, hit'⟩
  · rintro ⟨m', inside, hit'⟩
    by_cases this : t = tb
    · exact .inl this
    · refine .inr ⟨m', mem_others.mpr ⟨?_, this⟩, hit'⟩
      obtain same | inside := mem_cons.mp inside
      · exact absurd (congrArg Prod.fst same) this
      · exact inside

theorem gone_miss (miss : ¬Hit k s start end_ x) (t : Nat) :
    Gone k s start end_ l t ↔ Gone k s start end_ (x :: l) t := by
  refine exists_congr fun m => and_congr_left fun hit => ?_
  rw [mem_cons, or_iff_right]
  rintro rfl
  exact miss hit

/-- The first entry and the other one of its block, or a block of the rest. -/
theorem twiceIn_cons : TwiceIn k s start end_ (x :: l) ↔
    (Hit k s start end_ x ∧ ∃ m, m ≠ x.2 ∧ (x.1, m) ∈ l ∧ Hit k s start end_ (x.1, m)) ∨
      TwiceIn k s start end_ l := by
  obtain ⟨tb, m₀⟩ := x
  constructor
  · rintro ⟨tb', first, second, hit₀, hit₁⟩
    rw [mem_cons] at first second
    obtain ⟨⟨⟩⟩ | in₀ := first
    · exact .inl ⟨hit₀, 1, by simp, by simpa using second, hit₁⟩
    · obtain ⟨⟨⟩⟩ | in₁ := second
      · exact .inl ⟨hit₁, 0, by simp, in₀, hit₀⟩
      · exact .inr ⟨tb', in₀, in₁, hit₀, hit₁⟩
  · rintro (⟨hit, m, differ, inside, hit'⟩ | ⟨tb', first, second, hits⟩)
    · have inside := mem_cons_of_mem (tb, m₀) inside
      match m, m₀ with
      | 0, 0 => exact absurd rfl differ
      | 0, 1 => exact ⟨tb, inside, mem_cons_self, hit', hit⟩
      | 1, 0 => exact ⟨tb, mem_cons_self, inside, hit, hit'⟩
      | 1, 1 => exact absurd rfl differ
    · exact ⟨tb', .tail _ first, .tail _ second, hits⟩

/-- The blocks that the loop hits are gone at its end; it fails if a block is hit twice. -/
theorem invalidateLoop_spec (enough : 2 * n < rounds) (steps : Nat) :
    ∀ {s before rest}, Walking k n i s before rest → rest.length ≤ steps →
      FailsIff (TwiceIn k s start end_ rest) (Swept k (Gone k s start end_ rest) s)
        (invalidateLoop k start end_ rounds steps rest.head? s) := by
  induction steps using Nat.strongRecOn with
  | ind steps ih =>
    intro s before rest w long
    cases rest with
    | nil =>
      unfold invalidateLoop
      refine ⟨?_, .refl w.linked fun tb _ => ?_⟩
      · rintro ⟨tb, inside, -⟩
        cases inside
      · rintro ⟨m, inside, -⟩
        cases inside
    | cons x rest =>
      obtain ⟨steps, rfl⟩ := Nat.exists_eq_add_one_of_ne_zero (Nat.ne_zero_of_lt long)
      have long := Nat.le_of_succ_le_succ long
      rw [head?_cons]
      by_cases hit : Hit k s start end_ x
      · obtain ⟨s₁, h, goes⟩ := invalidateLoop_hit w enough hit steps
        have w₁ := w.forward.invalidated h
        have gone := fun t (_ : s.live t = true) => gone_behind (l := rest) hit h.tbs t
        rw [goes]
        obtain clear | ⟨m, tail, rfl, differ, clear⟩ := w.behind
        · rw [clear] at w₁ gone
          refine (ih steps (Nat.lt_succ_self _) w₁ long).imp ?_
            fun s' swept => (h.then swept).congr gone
          rw [TwiceIn.of_tbs h.tbs, twiceIn_cons, or_iff_right]
          rintro ⟨-, m, -, inside, -⟩
          rw [← clear] at inside
          exact (mem_others.mp inside).2 rfl
        -- the loop goes on with the other entry of the block
        have skip : others x.1 ((x.1, m) :: tail) = tail := by
          rw [others, filter_cons_of_neg (by simp [ofBlock])]
          exact clear
        rw [skip] at w₁ gone
        obtain ⟨steps, rfl⟩ := Nat.exists_eq_add_one_of_ne_zero (Nat.ne_zero_of_lt long)
        rw [length_cons] at long
        have dead := invalidateLoop_dead h w.forward.next w₁.few enough start end_ steps
        rw [head?_cons]
        by_cases hit' : Hit k s start end_ (x.1, m)
        · obtain ⟨e, fails⟩ := dead.1 hit'
          rw [fails]
          exact twiceIn_cons.mpr (.inl ⟨hit, m, differ, mem_cons_self, hit'⟩)
        rw [dead.2 hit']
        refine (ih steps (by omega) w₁ (by omega)).imp ?_ fun s' swept => (h.then swept).congr gone
        rw [TwiceIn.of_tbs h.tbs, twiceIn_cons, twiceIn_cons, or_iff_right, or_iff_right]
        · exact fun both => hit' both.1
        · rintro ⟨-, m', -, inside, hit''⟩
          obtain same | inside := mem_cons.mp inside
          · exact hit' (same ▸ hit'')
          · rw [← clear] at inside
            exact (mem_others.mp inside).2 rfl
      · rw [invalidateLoop_miss w hit]
        refine (ih steps (Nat.lt_succ_self _) w.forward long).imp ?_
          fun s' swept => swept.congr fun t _ => gone_miss hit t
        rw [twiceIn_cons, or_iff_right fun both => hit both.1]

end

end QemuStm32.Tb
