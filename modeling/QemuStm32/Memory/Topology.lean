import QemuStm32.Memory.Simplify

/-!
# The flat view of a tree of regions

`generateMemoryTopology_iff`: the view is flat and maps every address as the
priority rule asks, exactly when no visited region starts strictly inside what
one earlier region owns, and no region over the whole space comes after one that
owns it all.
-/

namespace QemuStm32.Memory

open Runs Intervals Interval List

/-- What is needed of a visit after the visits `before`: it is empty, or its
first address and the one before it do not belong to one earlier visit, and it
is not the whole space while an earlier visit owns all of it. -/
def FitsAfter (before : List Visit) (v : Visit) : Prop :=
  0 < v.clip.size →
    (¬ ∃ i, owner before (v.clip.start - 1) = some i ∧ owner before v.clip.start = some i) ∧
    (v.clip.size = spaceSize →
      ¬ ∃ i, ∀ a, 0 ≤ a → a < spaceSize → owner before a = some i)

/-- Every visit fits after those before it. -/
def AllFit (before : List Visit) : List Visit → Prop
  | [] => True
  | v :: vs => FitsAfter before v ∧ AllFit (before ++ [v]) vs

/-! ## The view after some visits -/

/-- The view `rs` is in order and consists of the parts of the address space
that the visits own. -/
structure Renders (vs : List Visit) (rs : List FlatRange) : Prop where
  ordered : Ordered rs
  inSpace : InSpace rs
  owned : ∀ r ∈ rs, ∃ i v, vs[i]? = some v ∧ (∀ a, covers a r = true → owner vs a = some i) ∧
    r = freshRange v.mr v.readonly (lo r - v.base).toNat r.addr.start r.addr.size ∧ v.base ≤ lo r
  boundary : ∀ r ∈ rs, owner vs (lo r - 1) ≠ owner vs (lo r)
  complete : ∀ a i, owner vs a = some i → ∃ r ∈ rs, covers a r = true

theorem Renders.nil : Renders [] [] :=
  ⟨.nil, nofun, nofun, nofun, nofun⟩

variable {r : FlatRange} {out : List FlatRange} {b a : Int} {i : Nat} {post : List Visit}

theorem covers_lo (h : lo r < hi r) : covers (lo r) r = true :=
  covers_iff.mpr ⟨Int.le_refl _, h⟩

variable {vs : List Visit} {rs : List FlatRange} {v : Visit}

section
variable (h : Renders vs rs)
include h

/-- An inner point of a range and the point before it belong to one visit. -/
theorem Renders.inside_owned (hr : r ∈ rs) (inside : lo r < b ∧ b < hi r) :
    ∃ i, owner vs (b - 1) = some i ∧ owner vs b = some i := by
  obtain ⟨i, _, _, own, _⟩ := h.owned r hr
  exact ⟨i, own _ (covers_iff.mpr (by omega)), own _ (covers_iff.mpr (by omega))⟩

/-- Two neighbouring points that belong to one visit lie in one range. -/
theorem Renders.inside_of_owned (left : owner vs (b - 1) = some i)
    (right : owner vs b = some i) : ∃ r ∈ rs, lo r < b ∧ b < hi r := by
  obtain ⟨r, hr, hc⟩ := h.complete b i right
  have bounds := covers_iff.mp hc
  refine ⟨r, hr, ?_, bounds.2⟩
  by_contra start
  have here : lo r = b := by omega
  apply h.boundary r hr
  rw [here, left, right]

/-- A range over the whole space is owned by one visit. -/
theorem Renders.whole_owned (hr : r ∈ rs) (whole : r.addr.size = spaceSize) :
    ∃ i, ∀ a, 0 ≤ a → a < spaceSize → owner vs a = some i := by
  obtain ⟨i, _, _, own, _⟩ := h.owned r hr
  obtain ⟨nonneg, le⟩ := h.inSpace r hr
  have hlo := flat_lo r
  have hhi := flat_hi r
  exact ⟨i, fun a ha hlt => own a (covers_iff.mpr (by omega))⟩

/-- A visit that owns the whole space fills one range. -/
theorem Renders.whole_of_owned (own : ∀ a, 0 ≤ a → a < spaceSize → owner vs a = some i) :
    ∃ r ∈ rs, r.addr.size = spaceSize := by
  have pos : 0 < spaceSize := by decide
  obtain ⟨r, hr, hc⟩ := h.complete 0 i (own 0 (by omega) pos)
  have bounds := covers_iff.mp hc
  obtain ⟨nonneg, le⟩ := h.inSpace r hr
  have hlo := flat_lo r
  have hhi := flat_hi r
  refine ⟨r, hr, ?_⟩
  by_contra short
  -- the address after the range has the same owner as the one before it
  have left := own (hi r - 1) (by omega) (by omega)
  have right := own (hi r) (by omega) (by omega)
  obtain ⟨q, hq, inside⟩ := h.inside_of_owned left right
  have coverQ : covers (hi r - 1) q = true := covers_iff.mpr (by omega)
  have coverR : covers (hi r - 1) r = true := covers_iff.mpr (by omega)
  obtain rfl := h.ordered.unique hq hr coverQ coverR
  omega

/-! ## One more visit -/

theorem Renders.ready (space : v.InSpace) (fits : FitsAfter vs v) :
    Ready rs v.clip.start v.clip.size (v.clip.start - v.base).toNat := by
  obtain ⟨start, size, stop, base, _, offset⟩ := space
  refine ⟨h.ordered, h.inSpace, start, size, stop, fun _ => by omega, fun left r hr inside => ?_,
    fun whole r hr size => ?_⟩
  · exact (fits left).1 (h.inside_owned hr inside)
  · exact (fits (by omega)).2 whole (h.whole_owned hr size)

end

theorem renderVisit_eq (space : v.InSpace) :
    renderVisit rs v =
      renderGaps v.mr v.readonly rs v.clip.start v.clip.size (v.clip.start - v.base).toNat := by
  unfold renderVisit renderSelf get64
  have := space.base_le
  rw [if_pos ⟨by omega, space.offset_lt⟩]
  rfl

/-- A new piece is owned by the new visit. -/
theorem Renders.piece_owned (h : Renders vs rs) (ordered : Ordered out) (old : ∀ r ∈ rs, r ∈ out)
    {s : FlatRange} (hs : s ∈ out) (fresh : s ∉ rs) (start : v.clip.start ≤ lo s)
    (stop : hi s ≤ v.clip.start + v.clip.size) (ha : covers a s = true) :
    owner (vs ++ [v]) a = some vs.length := by
  have free : owner vs a = none := by
    cases ho : owner vs a with
    | none => rfl
    | some i =>
      obtain ⟨r, hr, hc⟩ := h.complete a i ho
      obtain rfl := ordered.unique (old r hr) hs hc ha
      exact absurd hr fresh
  have bounds := covers_iff.mp ha
  have inside : covers a v = true := covers_iff.mpr ⟨Int.le_trans start bounds.1, by
    show a < v.clip.start + v.clip.size
    omega⟩
  rw [owner_append_singleton, free, if_pos inside]
  rfl

theorem owner_append_old (h : owner vs a = some i) : owner (vs ++ [v]) a = some i := by
  rw [owner_append_singleton, h]
  rfl

section
variable (h : Renders vs rs) (space : v.InSpace)
include h space

/-- Filling the gaps with a visit renders it after the others. -/
theorem Renders.filled
    (filled :
      Filled v.mr v.readonly rs v.clip.start v.clip.size (v.clip.start - v.base).toNat out) :
    Renders (vs ++ [v]) out := by
  have base_le := space.base_le
  have start_nonneg := space.start_nonneg
  have end_le := space.end_le
  refine ⟨filled.ordered, fun s hs => ?_, fun s hs => ?_, fun s hs => ?_, fun a i ho => ?_⟩
  · obtain old | piece := filled.new s hs
    · exact h.inSpace s old
    · have := piece.start
      have := piece.stop
      omega
  · by_cases old : s ∈ rs
    · obtain ⟨i, w, hw, own, rest⟩ := h.owned s old
      have lt := (List.getElem?_eq_some_iff.mp hw).1
      refine ⟨i, w, ?_, fun a ha => owner_append_old (own a ha), rest⟩
      rw [getElem?_append_left lt]
      exact hw
    · have piece := (filled.new s hs).resolve_left old
      refine ⟨vs.length, v, getElem?_concat_length, fun a ha => ?_, ?_, ?_⟩
      · exact h.piece_owned filled.ordered filled.old hs old piece.start piece.stop ha
      · have := piece.start
        have same : (v.clip.start - v.base).toNat + (lo s - v.clip.start).toNat =
            (lo s - v.base).toNat := by omega
        rw [← same]
        exact piece.fresh
      · have := piece.start
        omega
  · have nonempty := filled.ordered.nonempty s hs
    by_cases old : s ∈ rs
    · obtain ⟨i, w, hw, own, _⟩ := h.owned s old
      have lt := (List.getElem?_eq_some_iff.mp hw).1
      have here := own _ (covers_lo nonempty)
      rw [owner_append_old here, owner_append_singleton]
      cases ho : owner vs (lo s - 1) with
      | some j =>
        have apart := h.boundary s old
        rw [ho, here] at apart
        exact apart
      | none =>
        split
        · intro e
          have := Option.some.inj e
          omega
        · exact nofun
    · have piece := (filled.new s hs).resolve_left old
      rw [h.piece_owned filled.ordered filled.old hs old piece.start piece.stop
        (covers_lo nonempty)]
      intro e
      rw [owner_append_singleton] at e
      cases ho : owner vs (lo s - 1) with
      | some j =>
        have := owner_lt ho
        rw [ho] at e
        have := Option.some.inj e
        omega
      | none =>
        -- the piece starts where the visit does, or right after an owned address
        obtain edge | ⟨q, hq, edge⟩ := piece.edge
        · have away : ¬ covers (lo s - 1) v = true := by
            rw [covers_iff]
            show ¬ (v.clip.start ≤ lo s - 1 ∧ lo s - 1 < v.clip.start + v.clip.size)
            omega
          rw [ho, if_neg away] at e
          cases e
        · obtain ⟨i, _, _, own, _⟩ := h.owned q hq
          have := h.ordered.nonempty q hq
          rw [own (lo s - 1) (covers_iff.mpr (by omega))] at ho
          cases ho
  · rw [owner_append_singleton] at ho
    cases hold : owner vs a with
    | some j =>
      obtain ⟨r, hr, hc⟩ := h.complete a j hold
      exact ⟨r, filled.old r hr, hc⟩
    | none =>
      rw [hold] at ho
      split at ho
      · rename_i inside
        have bounds := covers_iff.mp inside
        exact filled.complete a bounds.1 bounds.2
      · cases ho

/-- A visit that fits is rendered after the others. -/
theorem Renders.visit (fits : FitsAfter vs v) :
    ∃ out, renderVisit rs v = .ok out ∧ Renders (vs ++ [v]) out := by
  obtain ⟨out, hout, filled⟩ := renderGaps_spec (h.ready space fits)
  exact ⟨out, by rw [renderVisit_eq space, hout], h.filled space filled⟩

/-- A visit that does not fit is not rendered, or is rendered over another. -/
theorem Renders.misfit (misfit : ¬ FitsAfter vs v)
    (hout : renderVisit rs v = .ok out) : ∃ a, 2 ≤ cover out a := by
  rw [renderVisit_eq space] at hout
  obtain ⟨left, bad⟩ := Classical.not_imp.mp misfit
  obtain inside | whole := not_and_or.mp bad
  · obtain ⟨i, before, here⟩ := not_not.mp inside
    obtain ⟨q, hq, hin⟩ := h.inside_of_owned before here
    exact ⟨v.clip.start, renderGaps_inside left h.ordered hq hin hout⟩
  obtain ⟨size, owned⟩ := Classical.not_imp.mp whole
  obtain ⟨i, own⟩ := not_not.mp owned
  obtain ⟨q, hq, hsize⟩ := h.whole_of_owned own
  have start : v.clip.start = 0 := by
    have := space.start_nonneg
    have := space.end_le
    omega
  rw [start, size] at hout
  exact absurd hout (renderGaps_whole h.ordered h.inSpace hq hsize)

end

/-! ## All visits -/

theorem renders_of_allFit (h : Renders vs rs)
    (space : ∀ v ∈ post, v.InSpace) (fit : AllFit vs post) :
    ∃ out, post.foldlM renderVisit rs = .ok out ∧ Renders (vs ++ post) out := by
  induction post generalizing vs rs with
  | nil => exact ⟨rs, rfl, by rw [append_nil]; exact h⟩
  | cons v post ih =>
    obtain ⟨out, hout, rendered⟩ := h.visit (space v mem_cons_self) fit.1
    obtain ⟨final, hfinal, rest⟩ := ih rendered (fun w hw => space w (.tail _ hw)) fit.2
    refine ⟨final, ?_, by rw [append_assoc] at rest; exact rest⟩
    exact bind_ok_iff.mpr ⟨out, hout, hfinal⟩

theorem foldlM_sublist (space : ∀ v ∈ post, v.InSpace)
    (h : post.foldlM renderVisit rs = .ok out) : rs.Sublist out := by
  apply foldlM_keeps _ (List.Sublist.refl rs) h
  intro mid v hv next sub rendered
  rw [renderVisit_eq (space v hv)] at rendered
  exact sub.trans (renderGaps_sublist rendered)

theorem foldlM_nonempty (space : ∀ v ∈ post, v.InSpace) (nonempty : ∀ r ∈ rs, lo r < hi r)
    (h : post.foldlM renderVisit rs = .ok out) : ∀ r ∈ out, lo r < hi r := by
  apply foldlM_keeps _ nonempty h
  intro mid v hv next old rendered
  have inSpace := space v hv
  rw [renderVisit_eq inSpace] at rendered
  exact renderGaps_nonempty inSpace.size_nonneg old rendered

/-- When the result covers nothing twice, every visit fitted. -/
theorem allFit_of_cover (h : Renders vs rs)
    (space : ∀ v ∈ post, v.InSpace) (hout : post.foldlM renderVisit rs = .ok out)
    (once : ∀ a, cover out a ≤ 1) : AllFit vs post := by
  induction post generalizing vs rs with
  | nil => trivial
  | cons v post ih =>
    have inSpace := space v mem_cons_self
    have inSpace' : ∀ w ∈ post, w.InSpace := fun w hw => space w (.tail _ hw)
    obtain ⟨mid, hmid, hout⟩ := bind_ok_iff.mp hout
    have fits : FitsAfter vs v := by
      by_contra misfit
      obtain ⟨a, twice⟩ := h.misfit inSpace misfit hmid
      have := cover_le_of_sublist (foldlM_sublist inSpace' hout) a
      have := once a
      omega
    obtain ⟨mid', hmid', rendered⟩ := h.visit inSpace fits
    obtain rfl : mid = mid' := Except.ok.inj (hmid.symm.trans hmid')
    exact ⟨fits, ih rendered inSpace' hout⟩

/-! ## The view and the tree -/

/-- The view maps an address to what the first visit that contains it assigns. -/
theorem Renders.lookup (h : Renders vs rs) (a : Int) : FlatView.lookup rs a = firstAssign vs a := by
  have same : (fun v : Visit => v.clip.contains a) = covers a := rfl
  unfold firstAssign
  rw [same]
  cases ho : owner vs a with
  | none =>
    rw [owner_eq_none ho]
    have none : rs.find? (covers a) = none := by
      rw [find?_eq_none]
      intro r hr hc
      obtain ⟨i, _, _, own, _⟩ := h.owned r hr
      rw [own a hc] at ho
      cases ho
    unfold FlatView.lookup
    rw [none]
    rfl
  | some i =>
    obtain ⟨r, hr, hc⟩ := h.complete a i ho
    obtain ⟨j, v, hv, own, fresh, base⟩ := h.owned r hr
    obtain ⟨w, hw, _, hf⟩ := owner_spec ho
    obtain rfl : j = i := Option.some.inj ((own a hc).symm.trans ho)
    obtain rfl : v = w := Option.some.inj (hv.symm.trans hw)
    rw [lookup_of_mem h.ordered hr hc, hf]
    have offset : (((lo r - v.base).toNat)) + (a - lo r) = a - v.base := by omega
    rw [fresh]
    exact congrArg (fun x => some (v.mr.id, x, v.readonly)) offset

/-- Sorted by start address, non-empty, and pairwise without a common address. -/
structure FlatView.Flat (view : FlatView) : Prop where
  sorted : view.Pairwise fun r s => r.addr.start ≤ s.addr.start
  nonempty : ∀ r ∈ view, 0 < r.addr.size
  disjoint : view.Pairwise fun r s => ∀ a, ¬ (r.addr.contains a = true ∧ s.addr.contains a = true)

theorem flat_iff_ordered (view : FlatView) : FlatView.Flat view ↔ Ordered view := by
  constructor
  · intro h
    refine ⟨fun r hr => ?_, ?_⟩
    · have := h.nonempty r hr
      rw [flat_lo, flat_hi]
      omega
    · refine (h.sorted.and h.disjoint).imp_of_mem fun {r s} hr hs ⟨le, apart⟩ => ?_
      by_contra overlap
      have := h.nonempty s hs
      rw [flat_lo, flat_hi] at overlap
      apply apart s.addr.start
      rw [contains_iff, contains_iff]
      omega
  · intro h
    refine ⟨h.ascending.imp_of_mem fun {r s} hr hs before => ?_, fun r hr => ?_,
      h.ascending.imp fun {r s} before a => ?_⟩
    · have := h.nonempty r hr
      rw [flat_lo] at *
      omega
    · have := h.nonempty r hr
      rw [flat_lo, flat_hi] at this
      omega
    · rw [contains_iff, contains_iff]
      rw [flat_lo, flat_hi] at before
      omega

/-- The view of a tree exists, is flat and maps every address to the region,
offset and read-only flag of the priority rule, exactly when every visit fits. -/
theorem generateMemoryTopology_iff (mr : MemoryRegion) :
    (∃ view, generateMemoryTopology mr = .ok view ∧ FlatView.Flat view ∧
      ∀ a, FlatView.lookup view a = resolveRoot mr a) ↔ AllFit [] (rootVisits mr) := by
  have space := rootVisits_inSpace mr
  constructor
  · rintro ⟨view, hview, flat, _⟩
    obtain ⟨out, hout, hview⟩ := bind_ok_iff.mp hview
    cases hview
    rw [renderMemoryRegion_eq] at hout
    have nonempty : ∀ r ∈ ([] : FlatView), lo r < hi r := nofun
    apply allFit_of_cover .nil space hout
    intro a
    rw [← simplify_cover (foldlM_nonempty space nonempty hout)]
    exact ((flat_iff_ordered _).mp flat).cover_le_one a
  · intro fit
    obtain ⟨out, hout, rendered⟩ := renders_of_allFit .nil space fit
    rw [nil_append] at rendered
    refine ⟨flatviewSimplify out, ?_, ?_, fun a => ?_⟩
    · unfold generateMemoryTopology
      rw [renderMemoryRegion_eq]
      exact bind_ok_iff.mpr ⟨out, hout, rfl⟩
    · exact (flat_iff_ordered _).mpr (simplify_ordered rendered.ordered)
    · rw [simplify_lookup rendered.ordered, rendered.lookup, resolveRoot_eq]

/-- A RAM region of 256 bytes. -/
def ram (id : Nat) (addr : BitVec 64) (priority : BitVec 32) : MemoryRegion :=
  .mk ⟨id, some 0, addr, 0x100, by decide, true, true, false, 0, 0, priority⟩ none []

/-- A container with one region at 0 and, below it in priority, one at 0x80. -/
def overlappingRam : MemoryRegion :=
  .mk ⟨0, none, 0, 2 ^ 64, le_rfl, false, true, false, 0, 0, 0⟩ none [ram 1 0 1, ram 2 0x80 0]

/-- The second region is rendered over the end of the first. -/
theorem overlapping_ram_not_flat :
    ¬ ∀ mr : MemoryRegion, ∃ view, generateMemoryTopology mr = .ok view ∧ FlatView.Flat view ∧
      ∀ a, FlatView.lookup view a = resolveRoot mr a := by
  intro h
  obtain ⟨view, hview, flat, _⟩ := h overlappingRam
  have rendered : (generateMemoryTopology overlappingRam).toOption =
      some [⟨1, 0, ⟨0, 0x100⟩, 0, true, false⟩, ⟨2, 0, ⟨0x80, 0x100⟩, 0, true, false⟩] := by
    decide +kernel
  rw [hview] at rendered
  cases rendered
  have apart := (pairwise_cons.mp flat.disjoint).1 _ mem_cons_self 0x80
  exact apart (by decide)

end QemuStm32.Memory
