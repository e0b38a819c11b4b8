import QemuStm32.Tcg.Copies

/-!
# A new copy

`tcg_opt_gen_mov` puts the destination of a move into the ring of its source.
The rings stay as they should be (`linkCopy_tracked`), and the one new thing
known is that the destination is a copy of the source (`linkCopy_learned`).
-/

namespace QemuStm32.Tcg

open Function Linked List Rings

section
variable {ctx : TCGContext} {temps temps' : Temps} {r x : Nat} {l : List Nat} {t src dst : Nat}

theorem same_of_fields (state : (temps' t).state = (temps t).state)
    (val : (temps' t).val = (temps t).val) (next : nexts temps' t = nexts temps t)
    (prev : prevs temps' t = prevs temps t) : temps' t = temps t := by
  unfold nexts at next
  unfold prevs at prev
  cases h : temps' t
  simp_all

theorem startRing_of_ne (ne : t ≠ src) : startRing temps src t = temps t := by
  unfold startRing
  split
  · simp [Temps.setState, Temps.setNext, Temps.setPrev, ne]
  · rfl

theorem startRing_val (temps : Temps) (src t : Nat) :
    (startRing temps src t).val = (temps t).val := by
  unfold startRing
  split
  · simp
  · rfl

theorem startRing_head (temps : Temps) (src : Nat) :
    (startRing temps src src).state = .hasCopy := by
  unfold startRing
  split
  · simp
  · next head => exact not_not.mp head

/-- The ring of `src`, new or not, and the temporaries in it. -/
theorem startRing_ring (h : Tracked ctx temps) (notCopy : (temps src).state ≠ .copy) :
    ∃ l, Ring (nexts (startRing temps src)) (prevs (startRing temps src)) src l ∧
      (∀ a ∈ l, (temps a).state = .copy ∧ (temps a).val = src ∧
        (ctx.nbGlobals ≤ a ∧ a < ctx.nbTemps) ∧ ctx.isLocal a = ctx.isLocal src) ∧
      ∀ {s m}, Circle ctx temps s m → ∀ {a b}, a ∈ s :: m → b ∈ s :: m → a ∈ src :: l →
        b ∈ src :: l := by
  by_cases head : (temps src).state = .hasCopy
  · obtain ⟨l, -, circle⟩ := h.of_head head
    rw [startRing, if_neg (not_not.mpr head)]
    refine ⟨l, circle.ring, fun a ha => ?_, circle.closed⟩
    have inside := mem_cons_of_mem src ha
    exact ⟨(circle.copies a ha).1, (circle.copies a ha).2, circle.bounds a inside,
      circle.locality a ha⟩
  · refine ⟨[], ?_, nofun, fun circle a b ha _ mem => ?_⟩
    · rw [startRing, if_pos head]
      simp only [setPrev_fields, setNext_fields, nexts_setState, prevs_setState]
      exact Ring.single src
    · obtain rfl := mem_singleton.mp mem
      exact absurd (circle.member ha) (not_or.mpr ⟨notCopy, head⟩)

/-- The array after a link: `dst` is a copy of `src`, and only links changed elsewhere. -/
theorem linkCopy_fields (temps : Temps) (ne : dst ≠ src) :
    (∀ t, (linkCopy temps dst src t).state =
        if t = dst then .copy else (startRing temps src t).state) ∧
      (∀ t, (linkCopy temps dst src t).val = if t = dst then src else (temps t).val) ∧
      nexts (linkCopy temps dst src) = Function.update
        (Function.update (nexts (startRing temps src)) dst (nexts (startRing temps src) src))
        src dst ∧
      prevs (linkCopy temps dst src) = Function.update
        (Function.update (prevs (startRing temps src)) dst src)
        (nexts (startRing temps src) src) dst := by
  have val := startRing_val temps src
  unfold linkCopy
  generalize startRing temps src = start at val
  have source : ((start.setState dst .copy).setVal dst src) src = start src := by
    simp [Temps.setState, Temps.setVal, Ne.symm ne]
  have target : ((((start.setState dst .copy).setVal dst src).setNext dst
      (start src).nextCopy).setPrev dst src dst).nextCopy = (start src).nextCopy := by
    simp [Temps.setPrev, Temps.setNext]
  dsimp only
  rw [source, target]
  refine ⟨fun t => by simp, fun t => by simp [val], by simp [nexts], by simp [nexts]⟩

/-- What is known once `dst` is a copy of `src`. -/
structure Learned (temps : Temps) (dst src : Nat) (temps' : Temps) : Prop where
  const : ∀ t, (temps' t).state = .const →
    (temps t).state = .const ∧ (temps' t).val = (temps t).val
  copy : ∀ t, (temps' t).state = .copy → t = dst ∧ (temps' t).val = src ∨
    (temps t).state = .copy ∧ (temps' t).val = (temps t).val

theorem linkCopy_learned (ne : dst ≠ src) : Learned temps dst src (linkCopy temps dst src) := by
  obtain ⟨state, val, _⟩ := linkCopy_fields temps ne
  have head := startRing_head temps src
  have old : ∀ t st, (startRing temps src t).state = st → st ≠ .hasCopy →
      (temps t).state = st := by
    intro t st ht other
    by_cases hts : t = src
    · rw [hts, head] at ht
      exact absurd ht.symm other
    · rwa [startRing_of_ne hts] at ht
  constructor
  · intro t ht
    rw [state] at ht
    split at ht
    · cases ht
    · rename_i htd
      exact ⟨old t _ ht (by decide), by rw [val, if_neg htd]⟩
  · intro t ht
    rw [state] at ht
    rw [val]
    split at ht
    · rename_i htd
      exact .inl ⟨htd, if_pos htd⟩
    · rename_i htd
      exact .inr ⟨old t _ ht (by decide), if_neg htd⟩

theorem linkCopy_tracked (h : Tracked ctx temps) (ne : dst ≠ src) (idle : ¬ Member temps dst)
    (notCopy : (temps src).state ≠ .copy) (srcBounds : ctx.nbGlobals ≤ src ∧ src < ctx.nbTemps)
    (dstBounds : ctx.nbGlobals ≤ dst ∧ dst < ctx.nbTemps)
    (locality : ctx.isLocal dst = ctx.isLocal src) : Tracked ctx (linkCopy temps dst src) := by
  obtain ⟨state, val, next, prev⟩ := linkCopy_fields temps ne
  obtain ⟨l, ring, copies, closed⟩ := startRing_ring h notCopy
  have head := startRing_head temps src
  have start : ∀ t, t ≠ src → startRing temps src t = temps t := fun t => startRing_of_ne
  generalize startRing temps src = mid at state next prev ring head start
  have notSrc : ∀ a ∈ l, a ≠ src := fun a ha e => ring.forward.stop_notMem (e ▸ ha)
  have fresh : dst ∉ src :: l := by
    rintro mem
    obtain same | mem := mem_cons.mp mem
    · exact ne same
    · exact idle (.inl (copies dst mem).1)
  have own : Circle ctx (linkCopy temps dst src) src (dst :: l) := by
    refine ⟨?_, ?_, fun a ha => ?_, fun a ha => ?_, fun a ha => ?_⟩
    · rw [next, prev]
      exact ring.insert fresh
    · rw [state, if_neg ne.symm, head]
    · rw [state, val]
      obtain rfl | ha := mem_cons.mp ha
      · exact ⟨if_pos rfl, if_pos rfl⟩
      · have notDst : a ≠ dst := fun e => fresh (e ▸ .tail _ ha)
        rw [if_neg notDst, if_neg notDst, start a (notSrc a ha)]
        exact ⟨(copies a ha).1, (copies a ha).2.1⟩
    · obtain rfl | ha := mem_cons.mp ha
      · exact srcBounds
      · obtain rfl | ha := mem_cons.mp ha
        · exact dstBounds
        · exact (copies a ha).2.2.1
    · obtain rfl | ha := mem_cons.mp ha
      · exact locality
      · exact (copies a ha).2.2.2
  refine h.change (fun t => t = dst ∨ t ∈ src :: l) (fun circle a b ha hb inside => ?_)
    (fun t ht => ?_) fun t ht _ => ⟨src, dst :: l, ?_, cons_ne_nil _ _, own⟩
  · obtain rfl | inside := inside
    · exact absurd (circle.member ha) idle
    · exact .inr (closed circle ha hb inside)
  · obtain ⟨notDst, outside⟩ := not_or.mp ht
    have other : t ≠ src := fun e => outside (e ▸ mem_cons_self)
    have notNext : t ≠ nexts mid src := fun e =>
      outside (e ▸ ring.next_mem mem_cons_self)
    refine same_of_fields ?_ ?_ ?_ ?_
    · rw [state, if_neg notDst, start t other]
    · rw [val, if_neg notDst]
    · rw [next, update_of_ne other, update_of_ne notDst, nexts, start t other]
      rfl
    · rw [prev, update_of_ne notNext, update_of_ne notDst, prevs, start t other]
      rfl
  · grind

end

end QemuStm32.Tcg
