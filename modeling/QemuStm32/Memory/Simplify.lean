import QemuStm32.Memory.Gaps

/-!
# Merging adjacent ranges

`flatview_simplify` merges neighbours one by one (`Merges`). One merge changes
neither what the view covers nor what it says about an address.
-/

namespace QemuStm32.Memory

open Intervals Interval List

/-- What a range assigns to an address in it. -/
def FlatRange.assign (r : FlatRange) (a : Int) : Nat × Int × Bool :=
  (r.mr, r.offsetInRegion + (a - r.addr.start), r.readonly)

/-- What the view maps an address to. -/
def FlatView.lookup (view : FlatView) (a : Int) : Option (Nat × Int × Bool) :=
  (view.find? (covers a)).map fun r => r.assign a

/-- Region, offset in the region, dirty-log mask, readable and readonly. -/
def FlatRange.attributes (r : FlatRange) (a : Int) : Nat × Int × BitVec 8 × Bool × Bool :=
  (r.mr, r.offsetInRegion + (a - r.addr.start), r.dirtyLogMask, r.readable, r.readonly)

def FlatView.attributes (view : FlatView) (a : Int) : Option (Nat × Int × BitVec 8 × Bool × Bool) :=
  (view.find? (covers a)).map fun r => r.attributes a

theorem lookup_eq_map (view : FlatView) (a : Int) : view.lookup a =
    (view.attributes a).map fun (mr, offset, _, _, readonly) => (mr, offset, readonly) := by
  unfold FlatView.attributes
  rw [Option.map_map]
  rfl

/-- `acc` with the size of `r` added. -/
def grow (acc r : FlatRange) : FlatRange :=
  { acc with addr := ⟨acc.addr.start, acc.addr.size + r.addr.size⟩ }

/-- Neighbours that can be merged are, from left to right. -/
inductive Merges : FlatView → FlatView → Prop
  | nil : Merges [] []
  | keep {r l m} : Merges l m → Merges (r :: l) (r :: m)
  | merge {r s l m} : canMerge r s = true → Merges (grow r s :: l) m → Merges (r :: s :: l) m

section
variable {r s acc last : FlatRange} {rs l m : FlatView}

theorem canMerge_iff : canMerge r s = true ↔ hi r = lo s ∧ r.mr = s.mr ∧
    r.offsetInRegion + r.addr.size = s.offsetInRegion ∧ r.dirtyLogMask = s.dirtyLogMask ∧
      r.readable = s.readable ∧ r.readonly = s.readonly := by
  simp only [canMerge, Bool.and_eq_true, decide_eq_true_eq, and_assoc]
  rfl

theorem hi_grow (merge : canMerge r s = true) : hi (grow r s) = hi s := by
  rw [flat_hi, flat_hi, ← flat_lo s, ← (canMerge_iff.mp merge).1]
  exact (Int.add_assoc ..).symm

/-- The grown range merges with what the range it has absorbed merges with. -/
theorem canMerge_grow (merge : canMerge r s = true) (q : FlatRange) :
    canMerge (grow r s) q = canMerge s q := by
  obtain ⟨touch, mr, offset, mask, readable, readonly⟩ := canMerge_iff.mp merge
  rw [Bool.eq_iff_iff, canMerge_iff, canMerge_iff, hi_grow merge, ← mr, ← offset, ← mask,
    ← readable, ← readonly, Int.add_assoc]
  rfl

theorem absorb_merges (same : ∀ q, canMerge acc q = canMerge last q) :
    Merges (acc :: rs) (absorb acc last rs) := by
  induction rs generalizing acc last with
  | nil => exact .keep .nil
  | cons r rs ih =>
    rw [absorb]
    split
    · next merge =>
      have merge := (same r).trans merge
      exact .merge merge (ih (canMerge_grow merge))
    · exact .keep (ih fun _ => rfl)

theorem simplify_merges (view : FlatView) : Merges view (flatviewSimplify view) := by
  cases view with
  | nil => exact .nil
  | cons r rs => exact absorb_merges fun _ => rfl

/-! ## One merge -/

theorem lo_le_hi_grow (hr : lo r ≤ hi r) (hs : lo s ≤ hi s) : lo (grow r s) ≤ hi (grow r s) := by
  show r.addr.start ≤ r.addr.start + (r.addr.size + s.addr.size)
  rw [flat_lo, flat_hi] at hr hs
  omega

/-- Growing by an adjacent range covers what the two cover. -/
theorem covers_grow (merge : canMerge r s = true) (hr : lo r ≤ hi r) (hs : lo s ≤ hi s) (a : Int) :
    covers a (grow r s) = (covers a r || covers a s) ∧ (covers a r && covers a s) = false := by
  have touch := (canMerge_iff.mp merge).1
  have hlo : lo (grow r s) = lo r := rfl
  have hhi : hi (grow r s) = r.addr.start + (r.addr.size + s.addr.size) := rfl
  rw [Bool.eq_iff_iff, Bool.or_eq_true, ← Bool.not_eq_true, Bool.and_eq_true, covers_iff,
    covers_iff, covers_iff]
  simp only [flat_lo, flat_hi] at *
  omega

theorem attributes_grow (merge : canMerge r s = true) (a : Int) :
    (grow r s).attributes a = s.attributes a := by
  obtain ⟨touch, mr, offset, mask, readable, readonly⟩ := canMerge_iff.mp merge
  rw [flat_hi, flat_lo] at touch
  have same : r.offsetInRegion + (a - r.addr.start) =
      s.offsetInRegion + (a - s.addr.start) := by omega
  unfold FlatRange.attributes grow
  rw [same, mr, mask, readable, readonly]

/-! ## All merges -/

theorem Merges.forall {P : FlatRange → Prop} (h : Merges l m)
    (grows : ∀ r s, P r → P s → P (grow r s)) (all : ∀ r ∈ l, P r) : ∀ r ∈ m, P r := by
  induction h with
  | nil => exact all
  | keep _ ih =>
    obtain ⟨first, rest⟩ := forall_mem_cons.mp all
    exact forall_mem_cons.mpr ⟨first, ih rest⟩
  | merge _ _ ih =>
    obtain ⟨first, rest⟩ := forall_mem_cons.mp all
    obtain ⟨second, rest⟩ := forall_mem_cons.mp rest
    exact ih (forall_mem_cons.mpr ⟨grows _ _ first second, rest⟩)

/-- Merging keeps the number of ranges that cover an address, and what is said about it. -/
theorem Merges.at (h : Merges l m) (sized : ∀ r ∈ l, lo r ≤ hi r) (a : Int) :
    cover m a = cover l a ∧ m.attributes a = l.attributes a := by
  induction h with
  | nil => exact ⟨rfl, rfl⟩
  | keep _ ih =>
    obtain ⟨count, same⟩ := ih (forall_mem_cons.mp sized).2
    unfold cover FlatView.attributes at *
    rw [countP_cons, countP_cons, count, find?_cons, find?_cons]
    refine ⟨rfl, ?_⟩
    split
    · rfl
    · exact same
  | @merge r s _ _ merge _ ih =>
    obtain ⟨hr, rest⟩ := forall_mem_cons.mp sized
    obtain ⟨hs, rest⟩ := forall_mem_cons.mp rest
    obtain ⟨count, same⟩ := ih (forall_mem_cons.mpr ⟨lo_le_hi_grow hr hs, rest⟩)
    obtain ⟨either, both⟩ := covers_grow merge hr hs a
    unfold cover FlatView.attributes at *
    rw [count, same, countP_cons, countP_cons, countP_cons, find?_cons,
      find?_cons, find?_cons, either]
    cases inR : covers a r with
    | true =>
      rw [inR, Bool.true_and] at both
      rw [both]
      exact ⟨rfl, rfl⟩
    | false =>
      cases covers a s with
      | true => exact ⟨rfl, congrArg some (attributes_grow merge a)⟩
      | false => exact ⟨rfl, rfl⟩

/-- Merging keeps the view in order. -/
theorem Merges.ascending (h : Merges l m) (sized : ∀ r ∈ l, lo r ≤ hi r)
    (ascending : l.Pairwise fun r s => hi r ≤ lo s) :
    (m.Pairwise fun r s => hi r ≤ lo s) ∧ ∀ b, (∀ r ∈ l, b ≤ lo r) → ∀ r ∈ m, b ≤ lo r := by
  induction h with
  | nil => exact ⟨.nil, fun _ => id⟩
  | keep _ ih =>
    obtain ⟨before, rest⟩ := pairwise_cons.mp ascending
    obtain ⟨inner, above⟩ := ih (forall_mem_cons.mp sized).2 rest
    refine ⟨pairwise_cons.mpr ⟨above _ before, inner⟩, fun b all => ?_⟩
    obtain ⟨first, rest⟩ := forall_mem_cons.mp all
    exact forall_mem_cons.mpr ⟨first, above b rest⟩
  | @merge r s _ _ merge _ ih =>
    obtain ⟨hr, sized⟩ := forall_mem_cons.mp sized
    obtain ⟨hs, sized⟩ := forall_mem_cons.mp sized
    obtain ⟨_, rest⟩ := pairwise_cons.mp ascending
    obtain ⟨before, rest⟩ := pairwise_cons.mp rest
    obtain ⟨inner, above⟩ := ih (forall_mem_cons.mpr ⟨lo_le_hi_grow hr hs, sized⟩)
      (pairwise_cons.mpr ⟨fun q hq => (hi_grow merge).trans_le (before q hq), rest⟩)
    refine ⟨inner, fun b all => above b ?_⟩
    obtain ⟨first, all⟩ := forall_mem_cons.mp all
    exact forall_mem_cons.mpr ⟨first, (forall_mem_cons.mp all).2⟩

end

/-! ## The whole view -/

section
variable {view : FlatView}

theorem simplify_nonempty (nonempty : ∀ r ∈ view, lo r < hi r) :
    ∀ r ∈ flatviewSimplify view, lo r < hi r := by
  refine (simplify_merges view).forall (fun r s hr hs => ?_) nonempty
  show r.addr.start < r.addr.start + (r.addr.size + s.addr.size)
  rw [flat_lo, flat_hi] at hr hs
  omega

theorem simplify_cover (nonempty : ∀ r ∈ view, lo r < hi r) (a : Int) :
    cover (flatviewSimplify view) a = cover view a :=
  ((simplify_merges view).at (fun r hr => Int.le_of_lt (nonempty r hr)) a).1

theorem simplify_ordered (h : Ordered view) : Ordered (flatviewSimplify view) where
  nonempty := simplify_nonempty h.nonempty
  ascending :=
    ((simplify_merges view).ascending (fun r hr => Int.le_of_lt (h.nonempty r hr)) h.ascending).1

theorem lookup_of_mem (h : Ordered view) {a : Int} {r : FlatRange}
    (hr : r ∈ view) (ha : covers a r = true) : FlatView.lookup view a = some (r.assign a) := by
  unfold FlatView.lookup
  rw [h.find_eq hr ha]
  rfl

theorem simplify_lookup (h : Ordered view) (a : Int) :
    FlatView.lookup (flatviewSimplify view) a = FlatView.lookup view a := by
  rw [lookup_eq_map, lookup_eq_map,
    ((simplify_merges view).at (fun r hr => Int.le_of_lt (h.nonempty r hr)) a).2]

/-- The first range starts where `acc` does and has its attributes. -/
theorem absorb_head (acc last : FlatRange) (rs : FlatView) : ∃ size tail,
    absorb acc last rs = { acc with addr := ⟨acc.addr.start, size⟩ } :: tail := by
  induction rs generalizing acc last with
  | nil => exact ⟨acc.addr.size, [], rfl⟩
  | cons r rs ih =>
    rw [absorb]
    split
    · exact ih _ r
    · exact ⟨acc.addr.size, _, rfl⟩

theorem absorb_apart {acc last : FlatRange} {rs : FlatView}
    (same : ∀ q, canMerge acc q = canMerge last q) :
    (absorb acc last rs).IsChain fun r s => canMerge r s = false := by
  induction rs generalizing acc last with
  | nil => exact .singleton _
  | cons r rs ih =>
    rw [absorb]
    split
    · next merge => exact ih (canMerge_grow ((same r).trans merge))
    · next apart =>
      have rest : (absorb r r rs).IsChain _ := ih fun _ => rfl
      obtain ⟨size, tail, head⟩ := absorb_head r r rs
      rw [head] at rest ⊢
      exact .cons_cons ((same r).trans (Bool.eq_false_iff.mpr apart)) rest

/-- What `flatview_simplify` makes of a view in ascending order. -/
theorem flatviewSimplify_spec (view : FlatView) (sized : ∀ r ∈ view, 0 ≤ r.addr.size)
    (sorted : view.Pairwise fun r s => r.addr.end ≤ s.addr.start) :
    (∀ r ∈ flatviewSimplify view, 0 ≤ r.addr.size) ∧
      ((flatviewSimplify view).Pairwise fun r s => r.addr.end ≤ s.addr.start) ∧
      (∀ a, (flatviewSimplify view).attributes a = view.attributes a) ∧
      ((flatviewSimplify view).IsChain fun r s => canMerge r s = false) ∧
      ∀ a, (∃ r ∈ flatviewSimplify view, r.addr.contains a) → ∃ r ∈ view, r.addr.contains a := by
  have merges := simplify_merges view
  have sized' : ∀ r ∈ view, lo r ≤ hi r := fun r hr => Int.le_add_of_nonneg_right (sized r hr)
  have same := merges.at sized'
  refine ⟨merges.forall (fun r s hr hs => Int.add_nonneg hr hs) sized,
    (merges.ascending sized' sorted).1, fun a => (same a).2, ?_, fun a covered => ?_⟩
  · cases view with
    | nil => exact .nil
    | cons r rs => exact absorb_apart fun _ => rfl
  · have count : 0 < cover view a := (same a).1 ▸ countP_pos_iff.mpr covered
    exact countP_pos_iff.mp count

/-- Two halves of one region that touch, and a third range that is read-only. -/
def halves : FlatView :=
  [⟨1, 0, ⟨0, 4096⟩, 0, true, false⟩, ⟨1, 4096, ⟨4096, 4096⟩, 0, true, false⟩,
    ⟨1, 8192, ⟨8192, 4096⟩, 0, true, true⟩]

theorem halves_simplified :
    flatviewSimplify halves =
        [⟨1, 0, ⟨0, 8192⟩, 0, true, false⟩, ⟨1, 8192, ⟨8192, 4096⟩, 0, true, true⟩] ∧
      ∀ a, (flatviewSimplify halves).attributes a = halves.attributes a :=
  ⟨by decide, (flatviewSimplify_spec halves (by decide) (by decide)).2.2.1⟩

end

end QemuStm32.Memory
