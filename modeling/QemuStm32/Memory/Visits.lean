import QemuStm32.Memory.Region

/-!
# The visits of a rendering

Rendering walks the tree depth first and renders one terminating region after
another. `visits` lists them; the rendering is a fold over that list
(`renderMemoryRegion_eq`), and what the tree assigns to an address is the first
visit that contains it (`resolve_eq_find`).
-/

namespace QemuStm32.Memory

open List Runs

/-- A terminating region reached by the walk: where it starts, and the part of
it that is left by all the regions above it. -/
structure Visit where
  mr : RegionInfo
  base : Int
  clip : AddrRange
  readonly : Bool
  deriving DecidableEq, Repr

mutual

def visits : MemoryRegion → (base : Int) → (clip : AddrRange) → (readonly : Bool) → List Visit
  | .mk mr target subregions, base, clip, readonly =>
    let base := base + mr.addr.toNat
    let readonly := readonly || mr.readonly
    let tmp : AddrRange := ⟨base, mr.size⟩
    if !tmp.intersects clip then []
    else
      let clip := tmp.intersection clip
      match target with
      | some aliased =>
        visits aliased (base - aliased.info.addr.toNat - mr.aliasOffset.toNat) clip readonly
      | none =>
        subregionVisits subregions base clip readonly ++
          if mr.terminates then [⟨mr, base, clip, readonly⟩] else []

def subregionVisits :
    List MemoryRegion → (base : Int) → (clip : AddrRange) → (readonly : Bool) → List Visit
  | [], _, _, _ => []
  | subregion :: rest, base, clip, readonly =>
    visits subregion base clip readonly ++ subregionVisits rest base clip readonly

end

def renderVisit (view : FlatView) (v : Visit) : Except Fault FlatView :=
  renderSelf view v.mr v.base v.clip v.readonly

/-! ## Rendering is a fold over the visits -/

mutual

theorem renderMemoryRegion_eq : ∀ (mr : MemoryRegion) (view : FlatView) (base : Int)
    (clip : AddrRange) (readonly : Bool),
    renderMemoryRegion view mr base clip readonly =
      (visits mr base clip readonly).foldlM renderVisit view
  | .mk mr (some aliased) subregions, view, base, clip, readonly => by
    unfold renderMemoryRegion visits
    dsimp only
    split
    · rfl
    · exact renderMemoryRegion_eq aliased view _ _ _
  | .mk mr none subregions, view, base, clip, readonly => by
    unfold renderMemoryRegion visits
    dsimp only
    split
    · rfl
    rw [foldlM_append, renderSubregions_eq]
    cases mr.terminates with
    | false => rfl
    | true =>
      simp only [Bool.not_true, Bool.false_eq_true, ↓reduceIte, foldlM_cons,
        foldlM_nil, renderVisit, bind_pure]

theorem renderSubregions_eq : ∀ (subregions : List MemoryRegion) (view : FlatView) (base : Int)
    (clip : AddrRange) (readonly : Bool),
    renderSubregions view subregions base clip readonly =
      (subregionVisits subregions base clip readonly).foldlM renderVisit view
  | [], view, base, clip, readonly => rfl
  | subregion :: rest, view, base, clip, readonly => by
    unfold renderSubregions subregionVisits
    rw [foldlM_append, renderMemoryRegion_eq]
    congr
    funext view
    exact renderSubregions_eq rest view base clip readonly

end

/-! ## What the tree assigns to an address -/

mutual

/-- The priority rule: depth first in list order, the first terminating region
that contains `a` and lies, up to the root, in regions that contain `a`. The
result is the region, the offset of `a` in it and the read-only flag. -/
def resolve (a : Int) : MemoryRegion → (base : Int) → (readonly : Bool) → Option (Nat × Int × Bool)
  | .mk mr target subregions, base, readonly =>
    let base := base + mr.addr.toNat
    let readonly := readonly || mr.readonly
    if a ≥ base ∧ a < base + mr.size then
      match target with
      | some aliased =>
        resolve a aliased (base - aliased.info.addr.toNat - mr.aliasOffset.toNat) readonly
      | none =>
        (resolveSubregions a subregions base readonly).or
          (if mr.terminates then some (mr.id, a - base, readonly) else none)
    else none

def resolveSubregions (a : Int) :
    List MemoryRegion → (base : Int) → (readonly : Bool) → Option (Nat × Int × Bool)
  | [], _, _ => none
  | subregion :: rest, base, readonly =>
    (resolve a subregion base readonly).or (resolveSubregions a rest base readonly)

end

/-- The rule for the whole tree: only addresses of the 64-bit space are
assigned. -/
def resolveRoot (mr : MemoryRegion) (a : Int) : Option (Nat × Int × Bool) :=
  if AddrRange.space.contains a then resolve a mr 0 false else none

/-- What a visit assigns to an address in it. -/
def Visit.assign (v : Visit) (a : Int) : Nat × Int × Bool := (v.mr.id, a - v.base, v.readonly)

/-- The assignment of the first visit that contains `a`. -/
def firstAssign (vs : List Visit) (a : Int) : Option (Nat × Int × Bool) :=
  (vs.find? fun v => v.clip.contains a).map fun v => v.assign a

theorem firstAssign_append (vs ws : List Visit) (a : Int) :
    firstAssign (vs ++ ws) a = (firstAssign vs a).or (firstAssign ws a) := by
  unfold firstAssign
  rw [find?_append]
  cases vs.find? fun v => v.clip.contains a <;> rfl

theorem contains_iff (r : AddrRange) (a : Int) :
    r.contains a = true ↔ r.start ≤ a ∧ a < r.start + r.size := by
  simp [AddrRange.contains, AddrRange.end]

theorem intersection_contains (r s : AddrRange) (a : Int) :
    (r.intersection s).contains a = true ↔ r.contains a = true ∧ s.contains a = true := by
  simp only [contains_iff, AddrRange.intersection, AddrRange.end]
  omega

theorem intersects_of_contains {r s : AddrRange} {a : Int} (hr : r.contains a = true)
    (hs : s.contains a = true) : r.intersects s = true := by
  simp only [AddrRange.intersects, Bool.or_eq_true, contains_iff] at *
  omega

mutual

/-- Every visit lies in the clip. -/
theorem visits_clip (a : Int) : ∀ (mr : MemoryRegion) (base : Int) (clip : AddrRange)
    (readonly : Bool), ∀ v ∈ visits mr base clip readonly, v.clip.contains a = true →
    clip.contains a = true ∧ base + mr.info.addr.toNat ≤ a ∧
      a < base + mr.info.addr.toNat + mr.info.size
  | .mk mr target subregions, base, clip, readonly => by
    unfold visits
    dsimp only
    split
    · exact fun v hv => absurd hv not_mem_nil
    intro v hv ha
    have inner :
        (AddrRange.intersection ⟨base + mr.addr.toNat, mr.size⟩ clip).contains a = true := by
      cases target with
      | some aliased => exact (visits_clip a aliased _ _ _ v hv ha).1
      | none =>
        cases List.mem_append.mp hv with
        | inl hv => exact subregionVisits_clip a subregions _ _ _ v hv ha
        | inr hv =>
          split at hv
          · obtain rfl := List.mem_singleton.mp hv
            exact ha
          · exact absurd hv not_mem_nil
    obtain ⟨self, outer⟩ := (intersection_contains _ _ a).mp inner
    exact ⟨outer, (contains_iff _ a).mp self⟩

theorem subregionVisits_clip (a : Int) : ∀ (subregions : List MemoryRegion) (base : Int)
    (clip : AddrRange) (readonly : Bool), ∀ v ∈ subregionVisits subregions base clip readonly,
    v.clip.contains a = true → clip.contains a = true
  | [], _, _, _ => fun v hv => absurd hv not_mem_nil
  | subregion :: rest, base, clip, readonly => by
    intro v hv ha
    cases List.mem_append.mp hv with
    | inl hv => exact (visits_clip a subregion base clip readonly v hv ha).1
    | inr hv => exact subregionVisits_clip a rest base clip readonly v hv ha

end

theorem firstAssign_none {vs : List Visit} {a : Int}
    (h : ∀ v ∈ vs, v.clip.contains a = true → False) : firstAssign vs a = none := by
  unfold firstAssign
  rw [find?_eq_none.mpr h]
  rfl

mutual

/-- Within the clip, the tree assigns to an address what the first visit that
contains it does. -/
theorem resolve_eq_firstAssign (a : Int) : ∀ (mr : MemoryRegion) (base : Int) (clip : AddrRange)
    (readonly : Bool), clip.contains a = true →
    resolve a mr base readonly = firstAssign (visits mr base clip readonly) a
  | .mk mr target subregions, base, clip, readonly, ha => by
    by_cases self : a ≥ base + mr.addr.toNat ∧ a < base + mr.addr.toNat + mr.size
    · have hself : (⟨base + mr.addr.toNat, mr.size⟩ : AddrRange).contains a = true :=
        (contains_iff _ a).mpr self
      have inner := (intersection_contains _ clip a).mpr ⟨hself, ha⟩
      unfold resolve visits
      dsimp only
      rw [if_pos self, intersects_of_contains hself ha]
      simp only [Bool.not_true, Bool.false_eq_true, ↓reduceIte]
      cases target with
      | some aliased => exact resolve_eq_firstAssign a aliased _ _ _ inner
      | none =>
        dsimp only
        rw [firstAssign_append, resolveSubregions_eq_firstAssign a subregions _ _ _ inner]
        congr 1
        cases mr.terminates with
        | false => rfl
        | true =>
          simp only [↓reduceIte, firstAssign, find?_singleton, inner]
          rfl
    · rw [firstAssign_none]
      · unfold resolve
        rw [if_neg self]
      · intro v hv hv'
        exact self (visits_clip a _ base clip readonly v hv hv').2

theorem resolveSubregions_eq_firstAssign (a : Int) : ∀ (subregions : List MemoryRegion)
    (base : Int) (clip : AddrRange) (readonly : Bool), clip.contains a = true →
    resolveSubregions a subregions base readonly =
      firstAssign (subregionVisits subregions base clip readonly) a
  | [], base, clip, readonly, ha => rfl
  | subregion :: rest, base, clip, readonly, ha => by
    unfold resolveSubregions subregionVisits
    rw [firstAssign_append, resolve_eq_firstAssign a subregion base clip readonly ha,
      resolveSubregions_eq_firstAssign a rest base clip readonly ha]

end

/-! ## The shape of a visit -/

/-- A visit lies in the 64-bit space and in its region. -/
structure Visit.InSpace (v : Visit) : Prop where
  start_nonneg : 0 ≤ v.clip.start
  size_nonneg : 0 ≤ v.clip.size
  end_le : v.clip.start + v.clip.size ≤ spaceSize
  base_le : v.base ≤ v.clip.start
  offset_lt : v.clip.start - v.base < spaceSize
  end_offset_le : v.clip.start + v.clip.size - v.base ≤ spaceSize

structure ClipInSpace (clip : AddrRange) : Prop where
  start_nonneg : 0 ≤ clip.start
  size_nonneg : 0 ≤ clip.size
  end_le : clip.start + clip.size ≤ spaceSize

/-- A region that meets the clip leaves a clip in the space, and a part of
itself that starts and ends within it. -/
theorem intersection_inSpace {clip : AddrRange} (h : ClipInSpace clip) {base : Int} {size : Nat}
    (size_le : size ≤ 2 ^ 64) (meets : (⟨base, size⟩ : AddrRange).intersects clip = true) :
    ClipInSpace ((⟨base, size⟩ : AddrRange).intersection clip) ∧
      base ≤ ((⟨base, size⟩ : AddrRange).intersection clip).start ∧
      ((⟨base, size⟩ : AddrRange).intersection clip).start - base < spaceSize ∧
      ((⟨base, size⟩ : AddrRange).intersection clip).start +
        ((⟨base, size⟩ : AddrRange).intersection clip).size - base ≤ spaceSize := by
  obtain ⟨start, nonneg, stop⟩ := h
  simp only [AddrRange.intersects, Bool.or_eq_true, contains_iff] at meets
  simp only [spaceSize] at *
  refine ⟨⟨?_, ?_, ?_⟩, ?_, ?_, ?_⟩ <;>
    simp only [AddrRange.intersection, AddrRange.end, spaceSize] <;> omega

mutual

theorem visits_inSpace : ∀ (mr : MemoryRegion) (base : Int) (clip : AddrRange) (readonly : Bool),
    ClipInSpace clip → ∀ v ∈ visits mr base clip readonly, v.InSpace
  | .mk mr target subregions, base, clip, readonly, h => by
    unfold visits
    dsimp only
    split
    · exact fun v hv => absurd hv not_mem_nil
    rename_i meets
    rw [Bool.not_eq_true, Bool.not_eq_false'] at meets
    obtain ⟨inner, below, offset, stop⟩ := intersection_inSpace h mr.size_le meets
    cases target with
    | some aliased => exact visits_inSpace aliased _ _ _ inner
    | none =>
      intro v hv
      cases List.mem_append.mp hv with
      | inl hv => exact subregionVisits_inSpace subregions _ _ _ inner v hv
      | inr hv =>
        split at hv
        · obtain rfl := List.mem_singleton.mp hv
          exact ⟨inner.start_nonneg, inner.size_nonneg, inner.end_le, below, offset, stop⟩
        · exact absurd hv not_mem_nil

theorem subregionVisits_inSpace : ∀ (subregions : List MemoryRegion) (base : Int)
    (clip : AddrRange) (readonly : Bool), ClipInSpace clip →
    ∀ v ∈ subregionVisits subregions base clip readonly, v.InSpace
  | [], _, _, _, _ => fun v hv => absurd hv not_mem_nil
  | subregion :: rest, base, clip, readonly, h => by
    intro v hv
    cases List.mem_append.mp hv with
    | inl hv => exact visits_inSpace subregion base clip readonly h v hv
    | inr hv => exact subregionVisits_inSpace rest base clip readonly h v hv

end

/-- The visits of the whole tree. -/
def rootVisits (mr : MemoryRegion) : List Visit := visits mr 0 .space false

theorem rootVisits_inSpace (mr : MemoryRegion) : ∀ v ∈ rootVisits mr, v.InSpace := by
  apply visits_inSpace
  exact ⟨by decide, by decide, by decide⟩

theorem resolveRoot_eq (mr : MemoryRegion) (a : Int) :
    resolveRoot mr a = firstAssign (rootVisits mr) a := by
  unfold resolveRoot
  split
  · exact resolve_eq_firstAssign a mr 0 .space false ‹_›
  · rename_i outside
    rw [firstAssign_none]
    exact fun v hv ha => outside (visits_clip a mr 0 .space false v hv ha).1

end QemuStm32.Memory
