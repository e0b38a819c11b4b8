import QemuStm32.Memory.Topology
import QemuStm32.Memory.Update

/-!
# Coalesced MMIO

A region has a list of ranges in which the guest's accesses may be coalesced. KVM
is told of them as zones of the address space, by the calls that change the list;
a change of the topology does not register zones.

`zonesFollow_iff`: the registered zones stay the image of the ranges exactly as
long as no update of the topology moves that image.
-/

namespace QemuStm32.Memory

open Intervals List Runs

/-! ## Regions that change -/

/-- A `MemoryRegion` on the heap. Regions are known by their place in the list of all
regions; `info.id` is not used. -/
structure Region where
  info : RegionInfo
  target : Option Nat
  subregions : List Nat
  coalesced : List AddrRange
  deriving DecidableEq, Repr

abbrev Regions := List Region

namespace Regions

variable (rs : Regions)

def find (mr : Nat) : Except Fault Region :=
  match rs[mr]? with
  | some r => .ok r
  | none => .error (.outOfBounds "regions" mr)

/-- The region with everything that it refers to. Regions that contain themselves
are not unfolded. -/
def tree (rs : Regions) : Nat → Nat → Except Fault MemoryRegion
  | 0, _ => .error .endlessLoop
  | levels + 1, mr => do
    let r ← rs.find mr
    let target ← match r.target with
      | none => .ok none
      | some t => some <$> tree rs levels t
    let subregions ← r.subregions.mapM (tree rs levels)
    .ok (.mk { r.info with id := mr } target subregions)

def coalesced (rs : Regions) (mr : Nat) : List AddrRange :=
  (rs[mr]?).elim [] (·.coalesced)

def changeInfo (mr : Nat) (f : RegionInfo → RegionInfo) : Regions :=
  rs.modify mr fun r => { r with info := f r.info }

def priority (rs : Regions) (mr : Nat) : BitVec 32 := (rs[mr]?).elim 0 (·.info.priority)

/-- Before the first region of no higher priority. -/
def insertSubregion (rs : Regions) (subregion : Nat) : List Nat → List Nat
  | [] => [subregion]
  | other :: rest =>
    if rs.priority subregion ≥ rs.priority other then subregion :: other :: rest
    else other :: insertSubregion rs subregion rest

/-- `memory_region_add_subregion_common` up to the update of the topology. -/
def addSubregionCommon (mr : Nat) (offset : BitVec 64) (subregion : Nat) :
    Except Fault Regions := do
  let _ ← rs.find mr
  let sub ← rs.find subregion
  if sub.info.parent.isSome then .error (.assertFailed "!subregion->parent")
  else
    let rs := rs.changeInfo subregion fun info => { info with parent := some mr, addr := offset }
    .ok (rs.modify mr fun r => { r with subregions := rs.insertSubregion subregion r.subregions })

def delSubregion (mr subregion : Nat) : Except Fault Regions := do
  let sub ← rs.find subregion
  if sub.info.parent ≠ some mr then .error (.assertFailed "subregion->parent == mr")
  else
    let rs := rs.changeInfo subregion fun info => { info with parent := none }
    .ok (rs.modify mr fun r => { r with subregions := r.subregions.erase subregion })

end Regions

/-! ## Zones -/

/-- KVM's side: whether unregistering a range drops a zone. The zones in the range
go, those outside it stay. -/
structure Kvm where
  drops : AddrRange → AddrRange → Bool
  inside : ∀ r z : AddrRange, 0 < z.size → r.start ≤ z.start → z.end ≤ r.end → drops r z = true
  outside : ∀ r z : AddrRange, 0 < z.size → z.end ≤ r.start ∨ r.end ≤ z.start → drops r z = false

/-- The `size` of a `kvm_coalesced_mmio_zone` has 32 bits. -/
def zone (start size : Nat) : AddrRange := ⟨start, (size % 2 ^ 32 : Nat)⟩

def qemuRegisterCoalescedMmio (zones : List AddrRange) (start size : Nat) : List AddrRange :=
  zones ++ [zone start size]

section
variable (kvm : Kvm)

def qemuUnregisterCoalescedMmio (zones : List AddrRange) (start size : Nat) : List AddrRange :=
  zones.filter fun z => !kvm.drops (zone start size) z

/-- The part of a coalesced range that is seen in a range of the view. -/
def FlatRange.coalescedPart (fr : FlatRange) (cmr : AddrRange) : Option AddrRange :=
  let tmp : AddrRange := ⟨cmr.start + (fr.addr.start - fr.offsetInRegion), cmr.size⟩
  if tmp.intersects fr.addr then some (tmp.intersection fr.addr) else none

def registerPart (fr : FlatRange) (zones : List AddrRange) (cmr : AddrRange) :
    Except Fault (List AddrRange) :=
  match fr.coalescedPart cmr with
  | none => .ok zones
  | some tmp => do
    let start ← get64 tmp.start
    let size ← get64 tmp.size
    .ok (qemuRegisterCoalescedMmio zones start size)

def memoryRegionUpdateCoalescedRange (coalesced : List AddrRange) (mr : Nat)
    (zones : List AddrRange) (fr : FlatRange) : Except Fault (List AddrRange) :=
  if fr.mr = mr then do
    let start ← get64 fr.addr.start
    let size ← get64 fr.addr.size
    coalesced.foldlM (registerPart fr) (qemuUnregisterCoalescedMmio kvm zones start size)
  else .ok zones

/-! ## The memory API -/

structure MemoryState where
  regions : Regions
  /-- `address_space_memory.root`. -/
  root : Option Nat
  /-- `address_space_memory.current_map`. -/
  currentMap : FlatView
  /-- `memory_region_transaction_depth`. -/
  depth : Nat
  zones : List AddrRange

/-- A call of the listener hands the bounds of its range on as 64-bit numbers. None
of them registers zones. -/
def asMemoryCall (call : TopologyCall) : Except Fault Unit := do
  let _ ← get64 call.range.start
  let _ ← get64 call.range.size
  .ok ()

section
variable (s : MemoryState)

/-- The view that `address_space_update_topology` finds. -/
def MemoryState.newMap (root : Nat) : Except Fault FlatView := do
  let mr ← s.regions.tree s.regions.length root
  let view ← generateMemoryTopology mr
  let calls ← addressSpaceUpdateTopology s.currentMap view
  let _ ← calls.mapM asMemoryCall
  .ok view

/-- The view that an update of the topology leaves behind, if it is made and finishes. -/
def MemoryState.updatedMap : Option FlatView :=
  if s.depth ≠ 0 then none else s.root.bind fun root => (s.newMap root).toOption

def memoryRegionUpdateTopology : Except Fault MemoryState :=
  if s.depth ≠ 0 then .ok s
  else
    match s.root with
    | none => .ok s
    | some root => do
      let view ← s.newMap root
      .ok { s with currentMap := view }

/-- `mr->coalesced` gets a new value, and all zones of the region are registered anew. -/
def changeCoalesced (mr : Nat)
    (f : List AddrRange → List AddrRange) : Except Fault MemoryState := do
  let r ← s.regions.find mr
  let coalesced := f r.coalesced
  let zones ← s.currentMap.foldlM (memoryRegionUpdateCoalescedRange kvm coalesced mr) s.zones
  .ok { s with
    regions := s.regions.modify mr fun r => { r with coalesced := coalesced }
    zones := zones }

def memoryRegionAddCoalescing (mr : Nat) (offset size : BitVec 64) : Except Fault MemoryState :=
  changeCoalesced kvm s mr fun coalesced => coalesced ++ [⟨offset.toNat, size.toNat⟩]

def memoryRegionClearCoalescing (mr : Nat) : Except Fault MemoryState :=
  changeCoalesced kvm s mr fun _ => []

def memoryRegionSetCoalescing (mr : Nat) : Except Fault MemoryState := do
  let s ← memoryRegionClearCoalescing kvm s mr
  let r ← s.regions.find mr
  let size ← get64 r.info.size
  memoryRegionAddCoalescing kvm s mr 0 (BitVec.ofNat 64 size)

inductive MemoryCall
  | addSubregion (mr : Nat) (offset : BitVec 64) (subregion : Nat)
  | addSubregionOverlap (mr : Nat) (offset : BitVec 64) (subregion : Nat) (priority : BitVec 32)
  | delSubregion (mr subregion : Nat)
  | setReadonly (mr : Nat) (readonly : Bool)
  | romDeviceSetReadable (mr : Nat) (readable : Bool)
  | setLog (mr : Nat) (log : Bool) (client : Nat)
  | setSystemMemoryMap (mr : Nat)
  | transactionBegin
  | transactionCommit
  | addCoalescing (mr : Nat) (offset size : BitVec 64)
  | clearCoalescing (mr : Nat)
  | setCoalescing (mr : Nat)
  deriving DecidableEq, Repr

/-- `mr->dirty_log_mask` with the bit of a client set or cleared. -/
def logMask (mask : BitVec 8) (log : Bool) (client : Nat) : BitVec 8 :=
  let bit : BitVec 8 := 1 <<< client
  mask &&& ~~~bit ||| (if log then bit else 0)

/-- What a call does up to the update of the topology, and whether it comes to that. -/
def change : MemoryCall → Except Fault (MemoryState × Bool)
  | .addSubregion mr offset subregion => do
    let rs := s.regions.changeInfo subregion fun info => { info with priority := 0 }
    let rs ← rs.addSubregionCommon mr offset subregion
    .ok ({ s with regions := rs }, true)
  | .addSubregionOverlap mr offset subregion priority => do
    let rs := s.regions.changeInfo subregion fun info => { info with priority := priority }
    let rs ← rs.addSubregionCommon mr offset subregion
    .ok ({ s with regions := rs }, true)
  | .delSubregion mr subregion => do
    let rs ← s.regions.delSubregion mr subregion
    .ok ({ s with regions := rs }, true)
  | .setReadonly mr readonly => do
    let r ← s.regions.find mr
    let rs := s.regions.changeInfo mr fun info => { info with readonly := readonly }
    .ok (if r.info.readonly ≠ readonly then ({ s with regions := rs }, true) else (s, false))
  | .romDeviceSetReadable mr readable => do
    let r ← s.regions.find mr
    let rs := s.regions.changeInfo mr fun info => { info with readable := readable }
    .ok (if r.info.readable ≠ readable then ({ s with regions := rs }, true) else (s, false))
  | .setLog mr log client => do
    let _ ← s.regions.find mr
    let rs := s.regions.changeInfo mr fun info =>
      { info with dirtyLogMask := logMask info.dirtyLogMask log client }
    .ok ({ s with regions := rs }, true)
  | .setSystemMemoryMap mr => .ok ({ s with root := some mr }, true)
  | .transactionBegin => .ok ({ s with depth := s.depth + 1 }, false)
  | .transactionCommit =>
    if s.depth = 0 then .error (.assertFailed "memory_region_transaction_depth")
    else .ok ({ s with depth := s.depth - 1 }, true)
  | .addCoalescing mr offset size => do
    let s ← memoryRegionAddCoalescing kvm s mr offset size
    .ok (s, false)
  | .clearCoalescing mr => do
    let s ← memoryRegionClearCoalescing kvm s mr
    .ok (s, false)
  | .setCoalescing mr => do
    let s ← memoryRegionSetCoalescing kvm s mr
    .ok (s, false)

def perform (call : MemoryCall) : Except Fault MemoryState := do
  let (s, updates) ← change kvm s call
  if updates then memoryRegionUpdateTopology s else .ok s

/-! ## What should be registered -/

/-- The coalesced ranges of all regions as they are seen in the view. -/
def coalescedImage (rs : Regions) (view : FlatView) : List AddrRange :=
  view.flatMap fun fr => (rs.coalesced fr.mr).filterMap fr.coalescedPart

def SameZones (xs ys : List AddrRange) : Prop := xs ⊆ ys ∧ ys ⊆ xs

instance (xs ys : List AddrRange) : Decidable (SameZones xs ys) :=
  inferInstanceAs (Decidable (_ ∧ _))

/-- While no transaction is open, the registered zones are the image of the coalesced
ranges under the current view. -/
def ZonesFollow : Prop :=
  s.depth = 0 → SameZones s.zones (coalescedImage s.regions s.currentMap)

end

/-- No two ranges of the view overlap. -/
def RangesApart (view : FlatView) : Prop :=
  view.Pairwise fun r s => r.addr.end ≤ s.addr.start ∨ s.addr.end ≤ r.addr.start

/-- A coalesced range is not empty, it is declared while the view is one of disjoint
ranges, and the ranges of the region have a size that KVM can be told. -/
def Registrable (s : MemoryState) : MemoryCall → Prop
  | .addCoalescing mr _ size =>
    size ≠ 0 ∧ RangesApart s.currentMap ∧
      ∀ fr ∈ s.currentMap, fr.mr = mr → fr.addr.size < 2 ^ 32
  | .clearCoalescing mr =>
    RangesApart s.currentMap ∧ ∀ fr ∈ s.currentMap, fr.mr = mr → fr.addr.size < 2 ^ 32
  | .setCoalescing mr =>
    (∀ r ∈ s.regions[mr]?, r.info.size ≠ 0) ∧ RangesApart s.currentMap ∧
      ∀ fr ∈ s.currentMap, fr.mr = mr → fr.addr.size < 2 ^ 32
  | _ => True

/-- The regions with which a call comes to the update of the topology. -/
def updating (s : MemoryState) (call : MemoryCall) : Option MemoryState :=
  match change kvm s call with
  | .ok (t, true) => some t
  | _ => none

/-- The call does not move a zone: where the view is updated, the coalesced ranges
are seen in the new view where they were seen in the old one. -/
def ZonesStay (s : MemoryState) (call : MemoryCall) : Prop :=
  ∀ t ∈ updating kvm s call, ∀ view ∈ t.updatedMap,
    SameZones (coalescedImage t.regions s.currentMap) (coalescedImage t.regions view)

end

instance (view : FlatView) : Decidable (RangesApart view) :=
  inferInstanceAs (Decidable (List.Pairwise _ _))

instance (s : MemoryState) (call : MemoryCall) : Decidable (Registrable s call) := by
  cases call <;> unfold Registrable <;> infer_instance

instance (kvm : Kvm) (s : MemoryState) (call : MemoryCall) : Decidable (ZonesStay kvm s call) :=
  inferInstanceAs (Decidable (∀ t ∈ updating kvm s call, _))

instance (s : MemoryState) : Decidable (ZonesFollow s) :=
  inferInstanceAs (Decidable (_ → _))

/-! ## Registering the zones of a region -/

/-- The zone is a part of the range. -/
structure Within (fr : FlatRange) (z : AddrRange) : Prop where
  nonempty : 0 < z.size
  start : fr.addr.start ≤ z.start
  stop : z.end ≤ fr.addr.end

/-- The zone has nothing of the range. -/
structure Away (fr : FlatRange) (z : AddrRange) : Prop where
  nonempty : 0 < z.size
  apart : z.end ≤ fr.addr.start ∨ fr.addr.end ≤ z.start

variable {fr : FlatRange} {z cmr : AddrRange} {a : Int} {n mr subregion : Nat}
  {zones zones' coalesced : List AddrRange} {kvm : Kvm} {view : FlatView} {rs rs' : Regions}
  {r : Region} {s t : MemoryState} {call : MemoryCall}

theorem Within.away {other : FlatRange} (h : Within fr z)
    (apart : fr.addr.end ≤ other.addr.start ∨ other.addr.end ≤ fr.addr.start) : Away other z := by
  refine ⟨h.nonempty, ?_⟩
  have := h.start
  have := h.stop
  omega

theorem Within.size_le (h : Within fr z) : z.size ≤ fr.addr.size := by
  obtain ⟨-, start, stop⟩ := h
  simp only [AddrRange.end] at stop
  omega

theorem coalescedPart_within (hfr : 0 < fr.addr.size) (hcmr : 0 < cmr.size)
    (h : fr.coalescedPart cmr = some z) : Within fr z := by
  unfold FlatRange.coalescedPart at h
  dsimp only at h
  split at h
  · rename_i meets
    cases h
    simp only [AddrRange.intersects, Bool.or_eq_true, contains_iff] at meets
    constructor <;> simp only [AddrRange.intersection, AddrRange.end] <;> omega
  · cases h

theorem get64_ok (h : get64 a = .ok n) : (n : Int) = a ∧ n < 2 ^ 64 := by
  unfold get64 spaceSize at h
  split at h
  · cases h
    omega
  · cases h

/-- Below 4 GiB KVM is told of the range itself. -/
theorem zone_get64 {r : AddrRange} {start size : Nat} (hstart : get64 r.start = .ok start)
    (hsize : get64 r.size = .ok size) (small : r.size < 2 ^ 32) : zone start size = r := by
  have h1 := (get64_ok hstart).1
  have h2 := (get64_ok hsize).1
  unfold zone
  rw [Nat.mod_eq_of_lt (by omega), h1, h2]

section
variable (hfr : 0 < fr.addr.size)
include hfr

theorem registerPart_eq (small : fr.addr.size < 2 ^ 32)
    (hcmr : 0 < cmr.size) (h : registerPart fr zones cmr = .ok zones') :
    zones' = zones ++ (fr.coalescedPart cmr).toList := by
  unfold registerPart at h
  split at h
  · rename_i none
    cases h
    rw [none]
    exact (append_nil _).symm
  · rename_i z part
    obtain ⟨start, hstart, h⟩ := bind_ok_iff.mp h
    obtain ⟨size, hsize, h⟩ := bind_ok_iff.mp h
    cases h
    have within := coalescedPart_within hfr hcmr part
    have := within.size_le
    unfold qemuRegisterCoalescedMmio
    rw [zone_get64 hstart hsize (by omega), part]
    rfl

section
variable (small : fr.addr.size < 2 ^ 32) (nonempty : ∀ cmr ∈ coalesced, 0 < cmr.size)
include small nonempty

theorem registerParts_eq (h : coalesced.foldlM (registerPart fr) zones = .ok zones') :
    zones' = zones ++ coalesced.filterMap fr.coalescedPart := by
  induction coalesced generalizing zones with
  | nil =>
    cases h
    exact (append_nil _).symm
  | cons cmr coalesced ih =>
    obtain ⟨mid, hmid, h⟩ := bind_ok_iff.mp h
    rw [ih (fun c hc => nonempty c (.tail _ hc)) h,
      registerPart_eq hfr small (nonempty cmr mem_cons_self) hmid, append_assoc]
    cases part : fr.coalescedPart cmr with
    | none => rw [filterMap_cons_none part]; rfl
    | some z => rw [filterMap_cons_some part]; rfl

/-- The zones of one range of the region are replaced. -/
theorem updateRange_eq
    (h : memoryRegionUpdateCoalescedRange kvm coalesced fr.mr zones fr = .ok zones') :
    zones' = (zones.filter fun z => !kvm.drops fr.addr z) ++
      coalesced.filterMap fr.coalescedPart := by
  unfold memoryRegionUpdateCoalescedRange at h
  rw [if_pos rfl] at h
  obtain ⟨start, hstart, h⟩ := bind_ok_iff.mp h
  obtain ⟨size, hsize, h⟩ := bind_ok_iff.mp h
  rw [registerParts_eq hfr small nonempty h, qemuUnregisterCoalescedMmio,
    zone_get64 hstart hsize small]

end

end

/-- What the loop makes of the zones `before` of each range. -/
def zonesAfter (coalesced : List AddrRange) (mr : Nat) (before : FlatRange → List AddrRange)
    (fr : FlatRange) : List AddrRange :=
  if fr.mr = mr then coalesced.filterMap fr.coalescedPart else before fr

/-- The loop over the view. `others` are zones of the ranges behind it. -/
theorem updateRanges_mem (before : FlatRange → List AddrRange) (others : List AddrRange)
    (apart : RangesApart view) (ranges : ∀ fr ∈ view, 0 < fr.addr.size)
    (small : ∀ fr ∈ view, fr.mr = mr → fr.addr.size < 2 ^ 32)
    (nonempty : ∀ cmr ∈ coalesced, 0 < cmr.size)
    (within : ∀ fr ∈ view, ∀ z ∈ before fr, Within fr z)
    (away : ∀ fr ∈ view, ∀ z ∈ others, Away fr z)
    (start : ∀ z, z ∈ zones ↔ z ∈ others ∨ z ∈ view.flatMap before)
    (h : view.foldlM (memoryRegionUpdateCoalescedRange kvm coalesced mr) zones = .ok zones') :
    ∀ z, z ∈ zones' ↔ z ∈ others ∨ z ∈ view.flatMap (zonesAfter coalesced mr before) := by
  induction view generalizing zones others with
  | nil =>
    cases h
    simpa using start
  | cons fr view ih =>
    obtain ⟨mid, hmid, h⟩ := bind_ok_iff.mp h
    obtain ⟨first, rest⟩ := pairwise_cons.mp apart
    have hfr := ranges fr mem_cons_self
    have after : ∀ z ∈ zonesAfter coalesced mr before fr, Within fr z := by
      intro z hz
      unfold zonesAfter at hz
      split at hz
      · obtain ⟨cmr, hcmr, part⟩ := mem_filterMap.mp hz
        exact coalescedPart_within hfr (nonempty cmr hcmr) part
      · exact within fr mem_cons_self z hz
    have step : ∀ z, z ∈ mid ↔
        z ∈ others ++ zonesAfter coalesced mr before fr ∨ z ∈ view.flatMap before := by
      intro z
      by_cases own : fr.mr = mr
      · subst own
        have hsmall := small fr mem_cons_self rfl
        rw [updateRange_eq hfr hsmall nonempty hmid, zonesAfter]
        -- the zones of this range go, all others stay
        have gone : z ∈ before fr → kvm.drops fr.addr z = true := by
          intro hz
          have inside := within fr mem_cons_self z hz
          exact kvm.inside _ _ inside.nonempty inside.start inside.stop
        have stays : Away fr z → kvm.drops fr.addr z = false :=
          fun outside => kvm.outside _ _ outside.nonempty outside.apart
        have later : z ∈ view.flatMap before → Away fr z := by
          intro hz
          obtain ⟨other, hother, hz⟩ := mem_flatMap.mp hz
          exact (within other (.tail _ hother) z hz).away (first other hother).symm
        grind
      · unfold memoryRegionUpdateCoalescedRange at hmid
        rw [if_neg own] at hmid
        cases hmid
        rw [start z, zonesAfter, if_neg own, flatMap_cons, mem_append, mem_append, or_assoc]
    have finish := ih (others ++ zonesAfter coalesced mr before fr) rest
      (fun r hr => ranges r (.tail _ hr))
      (fun r hr => small r (.tail _ hr))
      (fun r hr => within r (.tail _ hr))
      (fun r hr z hz => ?_) step h
    · intro z
      rw [finish z, mem_append, flatMap_cons, mem_append, or_assoc]
    · obtain hz | hz := mem_append.mp hz
      · exact away r (.tail _ hr) z hz
      · exact (after z hz).away (first r hr)

/-! ## One call -/

/-- The zones are those of the current view, with or without a transaction, and
neither the coalesced ranges nor those of the view are empty. -/
structure Settled (s : MemoryState) : Prop where
  follow : SameZones s.zones (coalescedImage s.regions s.currentMap)
  coalesced : ∀ mr, ∀ cmr ∈ s.regions.coalesced mr, 0 < cmr.size
  ranges : ∀ fr ∈ s.currentMap, 0 < fr.addr.size

theorem coalesced_modify {f : Region → Region} (same : ∀ r, (f r).coalesced = r.coalesced)
    (other : Nat) : Regions.coalesced (rs.modify mr f) other = rs.coalesced other := by
  unfold Regions.coalesced
  rw [getElem?_modify]
  cases rs[other]? with
  | none => rfl
  | some r =>
    by_cases here : mr = other
    · simp [here, same]
    · simp [here]

theorem coalesced_replaced (found : rs[mr]? = some r) (coalesced : List AddrRange) (other : Nat) :
    Regions.coalesced (rs.modify mr fun r => { r with coalesced := coalesced }) other =
      if other = mr then coalesced else rs.coalesced other := by
  unfold Regions.coalesced
  rw [getElem?_modify]
  by_cases here : other = mr
  · subst here
    simp [found]
  · cases rs[other]? <;> simp [here, Ne.symm here]

theorem find_ok (h : rs.find mr = .ok r) : rs[mr]? = some r := by
  unfold Regions.find at h
  split at h
  · rename_i found
    cases h
    exact found
  · cases h

/-- A coalescing call leaves the zones settled. -/
theorem changeCoalesced_settled {f : List AddrRange → List AddrRange} (h : Settled s)
    (apart : RangesApart s.currentMap)
    (small : ∀ fr ∈ s.currentMap, fr.mr = mr → fr.addr.size < 2 ^ 32)
    (nonempty : ∀ cmr ∈ f (s.regions.coalesced mr), 0 < cmr.size)
    (ht : changeCoalesced kvm s mr f = .ok t) :
    Settled t ∧ t.currentMap = s.currentMap ∧
      ∀ r, t.regions[mr]? = some r → ∃ q, s.regions[mr]? = some q ∧ r.info = q.info := by
  obtain ⟨r, hr, ht⟩ := bind_ok_iff.mp ht
  obtain ⟨zones, hzones, ht⟩ := bind_ok_iff.mp ht
  cases ht
  have found := find_ok hr
  have own : s.regions.coalesced mr = r.coalesced := by simp [Regions.coalesced, found]
  rw [own] at nonempty
  have replaced := coalesced_replaced found (f r.coalesced)
  have loop := updateRanges_mem
    (fun fr => (s.regions.coalesced fr.mr).filterMap fr.coalescedPart) []
    apart h.ranges small nonempty
    (fun fr hfr z hz => by
      obtain ⟨cmr, hcmr, part⟩ := mem_filterMap.mp hz
      exact coalescedPart_within (h.ranges fr hfr) (h.coalesced _ cmr hcmr) part)
    (fun _ _ _ hz => absurd hz not_mem_nil)
    (fun z => by
      simp only [not_mem_nil, false_or]
      exact ⟨fun hz => h.follow.1 hz, fun hz => h.follow.2 hz⟩)
    hzones
  have image : ∀ z, z ∈ zones ↔ z ∈ coalescedImage
      (s.regions.modify mr fun q => { q with coalesced := f r.coalesced }) s.currentMap := by
    intro z
    rw [loop z]
    simp only [not_mem_nil, false_or, coalescedImage, replaced]
    refine iff_of_eq (congrArg (z ∈ ·) (flatMap_congr fun fr _ => ?_))
    unfold zonesAfter
    split <;> rfl
  refine ⟨⟨⟨fun z => (image z).mp, fun z => (image z).mpr⟩, fun other cmr hcmr => ?_, h.ranges⟩,
    rfl, fun q hq => ⟨r, found, ?_⟩⟩
  · rw [replaced] at hcmr
    split at hcmr
    · exact nonempty cmr hcmr
    · exact h.coalesced other cmr hcmr
  · rw [getElem?_modify_eq, found] at hq
    cases hq
    rfl

/-- What the calls of the topology leave alone before the update. -/
structure KeepsZones (s t : MemoryState) : Prop where
  zones : t.zones = s.zones
  currentMap : t.currentMap = s.currentMap
  coalesced : ∀ mr, t.regions.coalesced mr = s.regions.coalesced mr

theorem KeepsZones.image (h : KeepsZones s t) (view : FlatView) :
    coalescedImage t.regions view = coalescedImage s.regions view := by
  refine flatMap_congr fun fr _ => ?_
  rw [h.coalesced]

theorem KeepsZones.settled (h : KeepsZones s t) (settled : Settled s) : Settled t := by
  refine ⟨?_, fun mr => ?_, ?_⟩
  · rw [h.image, h.zones, h.currentMap]
    exact settled.follow
  · rw [h.coalesced]
    exact settled.coalesced mr
  · rw [h.currentMap]
    exact settled.ranges

theorem changeInfo_coalesced (rs : Regions) (mr : Nat) (f : RegionInfo → RegionInfo)
    (other : Nat) : (rs.changeInfo mr f).coalesced other = rs.coalesced other := by
  exact coalesced_modify (by intro r; rfl) other

theorem KeepsZones.changeInfo (s : MemoryState) (mr : Nat) (f : RegionInfo → RegionInfo) :
    KeepsZones s { s with regions := s.regions.changeInfo mr f } :=
  ⟨rfl, rfl, fun other => changeInfo_coalesced s.regions mr f other⟩

theorem addSubregionCommon_coalesced {offset : BitVec 64}
    (h : rs.addSubregionCommon mr offset subregion = .ok rs') (other : Nat) :
    rs'.coalesced other = rs.coalesced other := by
  obtain ⟨_, _, h⟩ := bind_ok_iff.mp h
  obtain ⟨sub, _, h⟩ := bind_ok_iff.mp h
  split at h
  · cases h
  · cases h
    refine (coalesced_modify ?_ other).trans (changeInfo_coalesced _ _ _ other)
    exact fun _ => rfl

theorem delSubregion_coalesced (h : rs.delSubregion mr subregion = .ok rs') (other : Nat) :
    rs'.coalesced other = rs.coalesced other := by
  obtain ⟨sub, _, h⟩ := bind_ok_iff.mp h
  split at h
  · cases h
  · cases h
    refine (coalesced_modify ?_ other).trans (changeInfo_coalesced _ _ _ other)
    exact fun _ => rfl

/-- A call of the topology does nothing to the zones, and a coalescing call leaves
them settled without an update. -/
theorem change_cases {updates : Bool} (settled : Settled s) (registrable : Registrable s call)
    (h : change kvm s call = .ok (t, updates)) : KeepsZones s t ∨ Settled t ∧ updates = false := by
  cases call with
  | addSubregion mr offset subregion | addSubregionOverlap mr offset subregion priority =>
    obtain ⟨rs, hrs, h⟩ := bind_ok_iff.mp h
    cases h
    refine .inl ⟨rfl, rfl, fun other => ?_⟩
    rw [addSubregionCommon_coalesced hrs, changeInfo_coalesced]
  | delSubregion mr subregion =>
    obtain ⟨rs, hrs, h⟩ := bind_ok_iff.mp h
    cases h
    exact .inl ⟨rfl, rfl, delSubregion_coalesced hrs⟩
  | setReadonly mr value | romDeviceSetReadable mr value =>
    obtain ⟨r, _, h⟩ := bind_ok_iff.mp h
    split at h
    · cases h
      exact .inl (.changeInfo s mr _)
    · cases h
      exact .inl ⟨rfl, rfl, fun _ => rfl⟩
  | setLog mr log client =>
    obtain ⟨_, _, h⟩ := bind_ok_iff.mp h
    cases h
    exact .inl (.changeInfo s mr _)
  | setSystemMemoryMap | transactionBegin =>
    cases h
    exact .inl ⟨rfl, rfl, fun _ => rfl⟩
  | transactionCommit =>
    by_cases depth : s.depth = 0
    · simp [change, depth] at h
    · simp only [change, if_neg depth] at h
      cases h
      exact .inl ⟨rfl, rfl, fun _ => rfl⟩
  | addCoalescing mr offset size =>
    obtain ⟨u, hu, h⟩ := bind_ok_iff.mp h
    cases h
    obtain ⟨size_ne, apart, small⟩ := registrable
    have positive : (0 : Int) < size.toNat := by
      have := BitVec.toNat_ne_iff_ne.mpr size_ne
      simp at this
      omega
    refine .inr ⟨(changeCoalesced_settled settled apart small ?_ hu).1, rfl⟩
    exact forall_mem_append.mpr ⟨settled.coalesced mr, forall_mem_singleton.mpr positive⟩
  | clearCoalescing mr =>
    obtain ⟨u, hu, h⟩ := bind_ok_iff.mp h
    cases h
    obtain ⟨apart, small⟩ := registrable
    exact .inr ⟨(changeCoalesced_settled settled apart small (forall_mem_nil _) hu).1, rfl⟩
  | setCoalescing mr =>
    obtain ⟨u, hu, h⟩ := bind_ok_iff.mp h
    cases h
    obtain ⟨size_ne, apart, small⟩ := registrable
    obtain ⟨v, hv, hu⟩ := bind_ok_iff.mp hu
    obtain ⟨r, hr, hu⟩ := bind_ok_iff.mp hu
    obtain ⟨size, hsize, hu⟩ := bind_ok_iff.mp hu
    obtain ⟨cleared, map, info⟩ := changeCoalesced_settled settled apart small (forall_mem_nil _) hv
    obtain ⟨q, hq, same⟩ := info r (find_ok hr)
    have positive : (0 : Int) < (BitVec.ofNat 64 size).toNat := by
      have nonzero := size_ne q hq
      have full := get64_ok hsize
      rw [← same] at nonzero
      rw [BitVec.toNat_ofNat, Nat.mod_eq_of_lt full.2]
      omega
    refine .inr ⟨(changeCoalesced_settled cleared (map ▸ apart) (map ▸ small) ?_ hu).1, rfl⟩
    exact forall_mem_append.mpr ⟨cleared.coalesced mr, forall_mem_singleton.mpr positive⟩

/-- The ranges of a view are not empty, also where they overlap. -/
theorem generateMemoryTopology_nonempty {mr : MemoryRegion}
    (h : generateMemoryTopology mr = .ok view) : ∀ fr ∈ view, 0 < fr.addr.size := by
  obtain ⟨out, hout, h⟩ := bind_ok_iff.mp h
  cases h
  rw [renderMemoryRegion_eq] at hout
  have rendered := foldlM_nonempty (rootVisits_inSpace mr) (fun r hr => absurd hr not_mem_nil) hout
  intro fr hfr
  have := simplify_nonempty rendered fr hfr
  rw [flat_lo, flat_hi] at this
  omega

theorem newMap_nonempty {root : Nat} (h : s.newMap root = .ok view) :
    ∀ fr ∈ view, 0 < fr.addr.size := by
  obtain ⟨mr, _, h⟩ := bind_ok_iff.mp h
  obtain ⟨rendered, hview, h⟩ := bind_ok_iff.mp h
  obtain ⟨calls, _, h⟩ := bind_ok_iff.mp h
  obtain ⟨_, _, h⟩ := bind_ok_iff.mp h
  cases h
  exact generateMemoryTopology_nonempty hview

theorem updatedMap_iff :
    view ∈ s.updatedMap ↔ s.depth = 0 ∧ ∃ root, s.root = some root ∧ s.newMap root = .ok view := by
  unfold MemoryState.updatedMap
  split
  · rename_i depth
    simp [depth]
  cases hroot : s.root with
  | none => simp
  | some root =>
    cases hview : s.newMap root with
    | error fault => simp [Except.toOption, hview]
    | ok new => simp [Except.toOption, hview, show s.depth = 0 by omega]

/-- An update of the topology gives the state a new view or does nothing. -/
theorem updateTopology_cases (h : memoryRegionUpdateTopology s = .ok t) :
    t = s ∨ s.depth = 0 ∧ ∃ view ∈ s.updatedMap, t = { s with currentMap := view } := by
  unfold memoryRegionUpdateTopology at h
  split at h
  · cases h
    exact .inl rfl
  split at h
  · cases h
    exact .inl rfl
  · rename_i depth _ root hroot
    obtain ⟨view, hview, h⟩ := bind_ok_iff.mp h
    cases h
    exact .inr ⟨by omega, view, updatedMap_iff.mpr ⟨by omega, root, hroot, hview⟩, rfl⟩

theorem updating_iff : t ∈ updating kvm s call ↔ change kvm s call = .ok (t, true) := by
  unfold updating
  split
  · rename_i u hu
    simp [hu]
  · rename_i other
    constructor
    · exact nofun
    · intro h
      exact absurd h (other t)

section
variable (settled : Settled s)
include settled

/-- What a call leaves: settled zones, unless an update of the topology finds a view. -/
theorem perform_cases (registrable : Registrable s call)
    (h : perform kvm s call = .ok t) : Settled t ∨ t.depth = 0 ∧ ∃ u ∈ updating kvm s call,
      KeepsZones s u ∧ ∃ view ∈ u.updatedMap, t = { u with currentMap := view } := by
  obtain ⟨⟨u, updates⟩, hu, h⟩ := bind_ok_iff.mp h
  dsimp only at h
  obtain keeps | ⟨settledU, rfl⟩ := change_cases settled registrable hu
  · have settledU := keeps.settled settled
    split at h
    · next true =>
      rw [true] at hu
      obtain rfl | ⟨depth, view, hview, rfl⟩ := updateTopology_cases h
      · exact .inl settledU
      · exact .inr ⟨depth, u, updating_iff.mpr hu, keeps, view, hview, rfl⟩
    · cases h
      exact .inl settledU
  · cases h
    exact .inl settledU

theorem perform_settled (registrable : Registrable s call)
    (follow : ZonesFollow t) (h : perform kvm s call = .ok t) : Settled t := by
  obtain settledT | ⟨depth, u, _, keeps, view, hview, rfl⟩ := perform_cases settled registrable h
  · exact settledT
  · obtain ⟨_, root, _, hview⟩ := updatedMap_iff.mp hview
    exact ⟨follow depth, (keeps.settled settled).coalesced, newMap_nonempty hview⟩

/-- A call keeps the zones right exactly when it does not move them. -/
theorem perform_follow_iff (registrable : Registrable s call) :
    ZonesStay kvm s call ↔ ∀ t, perform kvm s call = .ok t → ZonesFollow t := by
  constructor
  · intro stay t h _
    obtain settledT | ⟨_, u, hu, keeps, view, hview, rfl⟩ := perform_cases settled registrable h
    · exact settledT.follow
    · have moved := stay u hu view hview
      have old := (keeps.settled settled).follow
      rw [keeps.currentMap] at old
      exact ⟨fun z hz => moved.1 (old.1 hz), fun z hz => old.2 (moved.2 hz)⟩
  · intro follow u hu view hview
    obtain hu := updating_iff.mp hu
    obtain ⟨depth, root, hroot, hview⟩ := updatedMap_iff.mp hview
    obtain keeps | ⟨_, false⟩ := change_cases settled registrable hu
    · have performed : perform kvm s call = .ok { u with currentMap := view } := by
        refine bind_ok_iff.mpr ⟨(u, true), hu, ?_⟩
        simp [memoryRegionUpdateTopology, depth, hroot, hview, ok_bind]
      have new := follow _ performed depth
      have old := (keeps.settled settled).follow
      rw [keeps.currentMap] at old
      exact ⟨fun z hz => new.1 (old.2 hz), fun z hz => old.1 (new.2 hz)⟩
    · cases false

end

/-! ## Whole runs -/

/-- The registered zones follow the coalesced ranges through a sequence of calls
exactly when no update of the topology moves the image of these ranges. -/
theorem zonesFollow_iff (kvm : Kvm) {s : MemoryState} {calls : List MemoryCall}
    (settled : Settled s) (registrable : StepsMeet (perform kvm) Registrable s calls) :
    Always (perform kvm) ZonesFollow s calls ↔
      StepsMeet (perform kvm) (ZonesStay kvm) s calls :=
  always_iff_stepsMeet_along (fun _ _ _ h hb follow ht => perform_settled h hb follow ht)
    (fun _ _ h hb _ => perform_follow_iff h hb) settled (fun _ => settled.follow) registrable

theorem apart_not_included (r z : AddrRange) (nonempty : 0 < z.size)
    (apart : z.end ≤ r.start ∨ r.end ≤ z.start) :
    decide (r.start ≤ z.start ∧ z.end ≤ r.end) = false := by
  apply decide_eq_false
  simp only [AddrRange.end] at *
  omega

/-- The zones that are included in a range go. -/
def droppingIncluded : Kvm where
  drops r z := decide (r.start ≤ z.start ∧ z.end ≤ r.end)
  inside _ _ _ start stop := decide_eq_true ⟨start, stop⟩
  outside := apart_not_included

/-- A container of the whole space and a device of one page. -/
def machine : MemoryState where
  regions :=
    [⟨⟨0, none, 0, 2 ^ 64, by decide, false, true, false, 0, 0, 0⟩, none, [], []⟩,
      ⟨⟨1, none, 0, 0x1000, by decide, true, true, false, 0, 0, 0⟩, none, [], []⟩]
  root := some 0
  currentMap := []
  depth := 0
  zones := []

theorem machine_settled : Settled machine := by
  refine ⟨by decide, fun mr cmr hcmr => ?_, nofun⟩
  match mr with
  | 0 | 1 | _ + 2 => cases hcmr

/-- A device that declares its coalesced range before it is mapped has no zone. -/
theorem mappedLater_unregistered :
    ¬ Always (perform droppingIncluded) ZonesFollow machine
      [.addCoalescing 1 0 0x100, .addSubregion 0 0x4000 1] := by
  intro h
  obtain ⟨t, ht, stale⟩ := exists_of_observed (f := fun t => decide (ZonesFollow t)) (b := false)
    (show (run (perform droppingIncluded) machine
      [.addCoalescing 1 0 0x100, .addSubregion 0 0x4000 1]).toOption.map _ = _ by decide +kernel)
  exact of_decide_eq_false stale (h.final ht)

/-- A device that is mapped first keeps its zones up to date. -/
theorem mappedEarlier_registered :
    Always (perform droppingIncluded) ZonesFollow machine
      [.addSubregion 0 0x4000 1, .addCoalescing 1 0 0x100, .transactionBegin,
        .addCoalescing 1 0x200 0x100, .transactionCommit, .clearCoalescing 1] :=
  (zonesFollow_iff droppingIncluded machine_settled (by decide +kernel)).mpr (by decide +kernel)

end QemuStm32.Memory
