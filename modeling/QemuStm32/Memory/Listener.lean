import QemuStm32.Memory.Topology
import QemuStm32.Memory.Update

/-!
# What the listener of an address space knows

`listener_follows`: through all updates of the topology the calls give a listener the map
that the priority rule asks for.
-/

namespace QemuStm32.Memory

open List Runs Intervals Interval

/-- An `AddressSpace`, and the map that its listener has made of the calls. -/
structure AddressSpace where
  root : MemoryRegion
  currentMap : FlatView
  told : PhysMap

/-- `address_space_update_topology` when the tree has become `root`. -/
def addressSpaceUpdate (as : AddressSpace) (root : MemoryRegion) : Except Fault AddressSpace := do
  let view ← generateMemoryTopology root
  let calls ← addressSpaceUpdateTopology as.currentMap view
  .ok ⟨root, view, calls.foldl TopologyCall.apply as.told⟩

/-- The listener has the view, which gives every address what the tree does. -/
structure Told (as : AddressSpace) : Prop where
  ordered : Ordered as.currentMap
  holding : as.told = FlatView.holding as.currentMap
  assigned : ∀ a, (as.told a).map (fun c => (c.mr, c.offset, c.readonly)) = resolveRoot as.root a

variable {old new : FlatView} {as : AddressSpace} {root : MemoryRegion}

theorem ascending_of_ordered (h : Ordered new) : Ascending new := by
  refine h.ascending.imp_of_mem fun {r s} hr _ le => ?_
  have := h.nonempty r hr
  rw [flat_lo, flat_hi] at *
  omega

/-- The calls take the map of the old view to that of the new one. -/
theorem calls_of_ordered (hold : Ordered old) (hnew : Ordered new) :
    ∃ calls, addressSpaceUpdateTopology old new = .ok calls ∧
      calls.foldl TopologyCall.apply (FlatView.holding old) = FlatView.holding new := by
  have ascends := ascending_of_ordered hold
  have ascends' := ascending_of_ordered hnew
  refine ⟨_, ?_, calls_apply ((flat_iff_ordered _).mpr hold).disjoint
    ((flat_iff_ordered _).mpr hnew).disjoint⟩
  rw [addressSpaceUpdateTopology, pass_eq false ascends ascends' (by omega),
    pass_eq true ascends ascends' (by omega)]
  rfl

theorem view_of_fit (fit : AllFit [] (rootVisits root)) :
    ∃ view, generateMemoryTopology root = .ok view ∧ Ordered view ∧
      ∀ a, FlatView.lookup view a = resolveRoot root a := by
  obtain ⟨out, hout, rendered⟩ := renders_of_allFit .nil (rootVisits_inSpace root) fit
  rw [nil_append] at rendered
  refine ⟨flatviewSimplify out, ?_, simplify_ordered rendered.ordered, fun a => ?_⟩
  · rw [generateMemoryTopology, renderMemoryRegion_eq]
    exact bind_ok_iff.mpr ⟨out, hout, rfl⟩
  · rw [simplify_lookup rendered.ordered, rendered.lookup, resolveRoot_eq]

theorem addressSpaceUpdate_told (h : Told as) (fit : AllFit [] (rootVisits root)) :
    ∃ as', addressSpaceUpdate as root = .ok as' ∧ Told as' := by
  obtain ⟨view, generated, ordered, assigned⟩ := view_of_fit fit
  obtain ⟨calls, made, map⟩ := calls_of_ordered h.ordered ordered
  refine ⟨⟨root, view, FlatView.holding view⟩, ?_, ordered, rfl, fun a => ?_⟩
  · rw [addressSpaceUpdate, generated, ok_bind, made, ok_bind, h.holding, map]
  · rw [← assigned]
    exact Option.map_map ..

/-- Whatever trees follow one another, each update ends and leaves the listener with the
map of its tree. -/
theorem listener_follows (h : Told as) (roots : List MemoryRegion)
    (fit : ∀ mr ∈ roots, AllFit [] (rootVisits mr)) :
    ∃ as', run addressSpaceUpdate as roots = .ok as' ∧ Told as' := by
  induction roots generalizing as with
  | nil => exact ⟨as, rfl, h⟩
  | cons mr roots ih =>
    obtain ⟨next, ok, told⟩ := addressSpaceUpdate_told h (fit mr mem_cons_self)
    obtain ⟨last, oks, follows⟩ := ih told fun r hr => fit r (.tail _ hr)
    exact ⟨last, run_cons_ok.mpr ⟨next, ok, oks⟩, follows⟩

/-- A single region fits wherever it is. -/
theorem ram_fits (id : Nat) (addr : BitVec 64) (priority : BitVec 32) :
    AllFit [] (rootVisits (ram id addr priority)) := by
  unfold rootVisits ram visits
  dsimp only
  split
  · trivial
  · rw [subregionVisits]
    refine ⟨fun _ => ⟨?_, fun _ => ?_⟩, trivial⟩
    · rintro ⟨i, none, -⟩
      cases none
    · rintro ⟨i, all⟩
      cases all 0 le_rfl (by decide)

/-- A region of RAM appears, and another one takes its place. -/
theorem listener_follows_ram : ∃ as, run addressSpaceUpdate
    ⟨.mk ⟨0, none, 0, 2 ^ 64, le_rfl, false, true, false, 0, 0, 0⟩ none [], [], fun _ => none⟩
    [ram 1 0 0, ram 2 0x80 0] = .ok as ∧ Told as := by
  refine listener_follows ⟨.nil, rfl, fun a => ?_⟩ _ ?_
  · unfold resolveRoot
    split
    · simp [resolve, resolveSubregions]
    · rfl
  · simp [ram_fits]

end QemuStm32.Memory
