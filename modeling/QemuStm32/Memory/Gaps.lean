import QemuStm32.Memory.Rounds

/-!
# Rendering one region into the gaps

The loop of `render_memory_region`. When the region does not start strictly
inside a range of the view, the loop fills exactly the gaps the view leaves
(`renderGaps_spec`). When it does, no branch of the loop moves past that range,
and the region is inserted over it (`renderGaps_inside`).
-/

namespace QemuStm32.Memory

open Runs Intervals Interval List

/-- A range the rendering inserted: a part of the region, at its offset, that
starts where the region does or where a range of the view ends. -/
structure Piece (mr : RegionInfo) (readonly : Bool) (rs : List FlatRange) (base remain : Int)
    (offset : Nat) (s : FlatRange) : Prop where
  fresh : s = freshRange mr readonly (offset + (lo s - base).toNat) s.addr.start s.addr.size
  start : base ≤ lo s
  stop : hi s ≤ base + remain
  edge : lo s = base ∨ ∃ q ∈ rs, hi q = lo s

/-- The view with the gaps filled. -/
structure Filled (mr : RegionInfo) (readonly : Bool) (rs : List FlatRange) (base remain : Int)
    (offset : Nat) (out : List FlatRange) : Prop where
  ordered : Ordered out
  old : ∀ r ∈ rs, r ∈ out
  new : ∀ s ∈ out, s ∈ rs ∨ Piece mr readonly rs base remain offset s
  complete : ∀ a, base ≤ a → a < base + remain → ∃ s ∈ out, covers a s = true

section
variable {mr : RegionInfo} {readonly : Bool} {r : FlatRange} {rs : List FlatRange}
  {base remain : Int} {offset : Nat}

theorem renderGaps_done (rs : List FlatRange) (base : Int) (offset : Nat) :
    renderGaps mr readonly rs base 0 offset = .ok rs := by
  cases rs with
  | nil => rfl
  | cons r rs => rw [renderGaps, if_pos rfl]

theorem Filled.done (h : Ordered rs) : Filled mr readonly rs base 0 offset rs :=
  ⟨h, fun _ hr => hr, fun _ hs => .inl hs, fun _ _ _ => by omega⟩

theorem Filled.last (left : 0 < remain) :
    Filled mr readonly [] base remain offset [freshRange mr readonly offset base remain] := by
  have hlo : lo (freshRange mr readonly offset base remain) = base := rfl
  have hhi : hi (freshRange mr readonly offset base remain) = base + remain := rfl
  refine ⟨?_, nofun, fun s hs => .inr ?_, fun a ha hlt => ⟨_, mem_singleton_self _, ?_⟩⟩
  · exact ordered_cons.mpr ⟨by omega, nofun, .nil⟩
  · obtain rfl := mem_singleton.mp hs
    exact ⟨by rw [hlo, Int.sub_self]; rfl, by omega, by omega, .inl hlo⟩
  · exact covers_iff.mpr ⟨ha, hlt⟩

variable {now : Int} {offset' : Nat} {fresh out : List FlatRange} {q : FlatRange}

/-- A piece of the rest of the region is a piece of the region. -/
theorem Piece.earlier {s : FlatRange}
    (h : Piece mr readonly rs (base + now) (remain - now) offset' s) (nonempty : lo s < hi s)
    (nonneg : 0 ≤ now) (offset_eq : 0 < remain - now → (offset' : Int) = offset + now)
    (past : 0 < remain - now → now = 0 ∨ hi r = base + now) :
    Piece mr readonly (r :: rs) base remain offset s := by
  have start := h.start
  have stop := h.stop
  have left : 0 < remain - now := by omega
  have same : offset' + (lo s - (base + now)).toNat = offset + (lo s - base).toNat := by
    omega
  refine ⟨by rw [← same]; exact h.fresh, by omega, by omega, ?_⟩
  obtain edge | ⟨q, hq, edge⟩ := h.edge
  · obtain zero | hr := past left
    · exact .inl (by omega)
    · exact .inr ⟨r, mem_cons_self, by omega⟩
  · exact .inr ⟨q, .tail _ hq, edge⟩

/-- A round and a filled rest make a filled view. -/
theorem Filled.round (ordered : Ordered (r :: rs))
    (round : Round mr readonly r base remain offset fresh now offset')
    (h : Filled mr readonly rs (base + now) (remain - now) offset' out) :
    Filled mr readonly (r :: rs) base remain offset (fresh ++ r :: out) := by
  obtain ⟨nonempty, before, _⟩ := ordered_cons.mp ordered
  have nonneg := round.nonneg
  have after : ∀ s ∈ out, hi r ≤ lo s := by
    intro s hs
    obtain old | piece := h.new s hs
    · exact before s old
    · have := h.ordered.nonempty s hs
      have := piece.start
      have := piece.stop
      have := (round.past (by omega)).1
      omega
  have tail : Ordered (r :: out) := ordered_cons.mpr ⟨nonempty, after, h.ordered⟩
  refine ⟨?_, fun s hs => ?_, fun s hs => ?_, fun a ha hlt => ?_⟩
  · obtain rfl | ⟨s, rfl⟩ := round.single
    · exact tail
    obtain ⟨e, pos, below, _⟩ := round.inserted s mem_cons_self
    have hlo := flat_lo s
    have hhi := flat_hi s
    refine ordered_cons.mpr ⟨by omega, fun q hq => ?_, tail⟩
    obtain rfl | hq := mem_cons.mp hq
    · exact below
    · have := after q hq
      omega
  · obtain rfl | hs := mem_cons.mp hs
    · exact mem_append_right _ mem_cons_self
    · exact mem_append_right _ (.tail _ (h.old s hs))
  · obtain hs | hs := mem_append.mp hs
    · right
      obtain ⟨e, pos, below, stop⟩ := round.inserted s hs
      have hlo : lo s = base := by rw [e]; rfl
      refine ⟨?_, by omega, stop, .inl hlo⟩
      rw [hlo, Int.sub_self, ← flat_lo, hlo]
      exact e
    · obtain rfl | hs := mem_cons.mp hs
      · exact .inl mem_cons_self
      · obtain old | piece := h.new s hs
        · exact .inl (.tail _ old)
        · exact .inr (piece.earlier (h.ordered.nonempty s hs) nonneg round.offset_eq
            fun left => (round.past left).2)
  · by_cases dealt : a < base + now
    · obtain here | ⟨s, hs, hc⟩ := round.covered a ha dealt
      · exact ⟨r, mem_append_right _ mem_cons_self, here⟩
      · exact ⟨s, mem_append_left _ hs, hc⟩
    · obtain ⟨s, hs, hc⟩ := h.complete a (by omega) (by omega)
      exact ⟨s, mem_append_right _ (.tail _ hs), hc⟩

theorem Ready.next (h : Ready (r :: rs) base remain offset)
    (round : Round mr readonly r base remain offset fresh now offset') :
    Ready rs (base + now) (remain - now) offset' := by
  obtain ⟨_, before, rest⟩ := ordered_cons.mp h.ordered
  have nonneg := round.nonneg
  have le := round.le
  have base_nonneg := h.base_nonneg
  have end_le := h.end_le
  refine ⟨rest, fun s hs => h.inSpace s (.tail _ hs), by omega, by omega, by omega,
    fun left => ?_, fun left s hs => ?_, fun whole s hs => ?_⟩
  · have := h.offset_le (by omega)
    have := round.offset_eq left
    omega
  · have := before s hs
    obtain zero | past := (round.past left).2
    · rw [zero, Int.add_zero]
      exact h.outside (by omega) s (.tail _ hs)
    · omega
  · exact h.not_whole (by omega) s (.tail _ hs)

/-- The loop fills the gaps. -/
theorem renderGaps_spec (h : Ready rs base remain offset) :
    ∃ out, renderGaps mr readonly rs base remain offset = .ok out ∧
      Filled mr readonly rs base remain offset out := by
  induction rs generalizing base remain offset with
  | nil =>
    by_cases left : remain = 0
    · subst left
      exact ⟨[], renderGaps_done [] base offset, .done h.ordered⟩
    · have := h.remain_nonneg
      exact ⟨_, by rw [renderGaps, if_pos left], .last (by omega)⟩
  | cons r rs ih =>
    by_cases left : remain = 0
    · subst left
      exact ⟨r :: rs, renderGaps_done (r :: rs) base offset, .done h.ordered⟩
    · have := h.remain_nonneg
      obtain ⟨fresh, now, offset', round, continues⟩ := renderGaps_round h (by omega)
      obtain ⟨out, hout, filled⟩ := ih (h.next round)
      exact ⟨_, continues out hout, filled.round h.ordered round⟩

/-! ## What goes wrong -/

/-- Whatever the loop does, it removes nothing. -/
theorem renderGaps_sublist (h : renderGaps mr readonly rs base remain offset = .ok out) :
    rs.Sublist out := by
  induction rs generalizing base remain offset out with
  | nil => exact nil_sublist out
  | cons r rs ih =>
    unfold renderGaps at h
    split at h
    · cases h; exact List.Sublist.refl _
    split at h
    · obtain ⟨rest, hrest, h⟩ := bind_ok_iff.mp h
      cases h
      exact (ih hrest).cons_cons r
    split at h
    · obtain ⟨_, _, h⟩ := bind_ok_iff.mp h
      obtain ⟨_, _, h⟩ := bind_ok_iff.mp h
      obtain ⟨rest, hrest, h⟩ := bind_ok_iff.mp h
      cases h
      exact ((ih hrest).cons_cons r).cons _
    · obtain ⟨_, _, h⟩ := bind_ok_iff.mp h
      obtain ⟨rest, hrest, h⟩ := bind_ok_iff.mp h
      cases h
      exact (ih hrest).cons_cons r

theorem freshRange_nonempty (pos : 0 < now) :
    lo (freshRange mr readonly offset base now) < hi (freshRange mr readonly offset base now) := by
  show base < base + now
  omega

theorem skipRange_nonneg {base' remain' : Int} (nonneg : 0 ≤ remain)
    (h : skipRange r base remain offset = .ok (base', remain', offset')) : 0 ≤ remain' := by
  unfold skipRange at h
  split at h
  · obtain ⟨_, _, h⟩ := bind_ok_iff.mp h
    cases h
    omega
  · cases h
    exact nonneg

/-- Whatever the loop does, it inserts no empty range. -/
theorem renderGaps_nonempty (nonneg : 0 ≤ remain) (nonempty : ∀ r ∈ rs, lo r < hi r)
    (h : renderGaps mr readonly rs base remain offset = .ok out) : ∀ s ∈ out, lo s < hi s := by
  induction rs generalizing base remain offset out with
  | nil =>
    cases h
    intro s hs
    split at hs
    · obtain rfl := mem_singleton.mp hs
      exact freshRange_nonempty (by omega)
    · cases hs
  | cons r rs ih =>
    have hr := nonempty r mem_cons_self
    have hrs : ∀ s ∈ rs, lo s < hi s := fun s hs => nonempty s (.tail _ hs)
    unfold renderGaps at h
    split at h
    · cases h; exact nonempty
    split at h
    · obtain ⟨rest, hrest, h⟩ := bind_ok_iff.mp h
      cases h
      exact forall_mem_cons.mpr ⟨hr, ih nonneg hrs hrest⟩
    split at h
    · obtain ⟨_, _, h⟩ := bind_ok_iff.mp h
      obtain ⟨⟨base', remain', offset'⟩, hskip, h⟩ := bind_ok_iff.mp h
      obtain ⟨rest, hrest, h⟩ := bind_ok_iff.mp h
      cases h
      have after := skipRange_nonneg (by omega) hskip
      refine forall_mem_cons.mpr ⟨freshRange_nonempty (by omega), ?_⟩
      exact forall_mem_cons.mpr ⟨hr, ih after hrs hrest⟩
    · obtain ⟨⟨base', remain', offset'⟩, hskip, h⟩ := bind_ok_iff.mp h
      obtain ⟨rest, hrest, h⟩ := bind_ok_iff.mp h
      cases h
      have after := skipRange_nonneg nonneg hskip
      exact forall_mem_cons.mpr ⟨hr, ih after hrs hrest⟩

/-- Before ranges that all start later, the region is inserted at once. -/
theorem renderGaps_ahead (left : 0 < remain) (ordered : Ordered rs) (ahead : ∀ s ∈ rs, base < lo s)
    (h : renderGaps mr readonly rs base remain offset = .ok out) : 1 ≤ cover out base := by
  have inserted : ∀ now rest, 0 < now →
      1 ≤ cover (freshRange mr readonly offset base now :: rest) base := by
    intro now rest pos
    have here : covers base (freshRange mr readonly offset base now) = true := by
      rw [covers_iff]
      show base ≤ base ∧ base < base + now
      omega
    unfold cover
    rw [countP_cons_of_pos here]
    omega
  cases rs with
  | nil =>
    rw [renderGaps, if_pos (by omega)] at h
    cases h
    exact inserted remain [] left
  | cons s rs =>
    have start : base < s.addr.start := ahead s mem_cons_self
    have stop := ordered.nonempty s mem_cons_self
    have hlo := flat_lo s
    have notPast : ¬ base ≥ s.addr.end := by
      show ¬ hi s ≤ base
      omega
    rw [renderGaps, if_neg (by omega), if_neg notPast, if_pos start] at h
    obtain ⟨_, _, h⟩ := bind_ok_iff.mp h
    obtain ⟨_, _, h⟩ := bind_ok_iff.mp h
    obtain ⟨rest, _, h⟩ := bind_ok_iff.mp h
    cases h
    exact inserted _ _ (by omega)

/-- A region that starts strictly inside a range is inserted over it. -/
theorem renderGaps_inside (left : 0 < remain) (ordered : Ordered rs) (hq : q ∈ rs)
    (inside : lo q < base ∧ base < hi q)
    (h : renderGaps mr readonly rs base remain offset = .ok out) : 2 ≤ cover out base := by
  induction rs generalizing out with
  | nil => cases hq
  | cons r rs ih =>
    obtain ⟨_, before, rest⟩ := ordered_cons.mp ordered
    have grow : ∀ tail : List FlatRange, cover tail base ≤ cover (r :: tail) base :=
      fun tail => cover_le_of_sublist (sublist_cons_self r tail) base
    by_cases behind : hi r ≤ base
    · have past : base ≥ r.addr.end := behind
      rw [renderGaps, if_neg (by omega), if_pos past] at h
      obtain ⟨tail, htail, h⟩ := bind_ok_iff.mp h
      cases h
      have later : q ∈ rs := by
        obtain rfl | later := mem_cons.mp hq
        · omega
        · exact later
      have := ih rest later htail
      have := grow tail
      omega
    · have here : q = r := by
        obtain rfl | later := mem_cons.mp hq
        · rfl
        · have := before q later
          omega
      subst here
      have notPast : ¬ base ≥ q.addr.end := behind
      have notBefore : ¬ base < q.addr.start := by
        show ¬ base < lo q
        omega
      have notAt : ¬ base = q.addr.start := by
        show ¬ base = lo q
        omega
      rw [renderGaps, if_neg (by omega), if_neg notPast, if_neg notBefore, skipRange,
        if_neg notAt] at h
      obtain ⟨_, hs, h⟩ := bind_ok_iff.mp h
      cases hs
      obtain ⟨tail, htail, h⟩ := bind_ok_iff.mp h
      cases h
      have ahead : ∀ s ∈ rs, base < lo s := by
        intro s hs
        have := before s hs
        omega
      have inserted := renderGaps_ahead left rest ahead htail
      have self : covers base q = true := covers_iff.mpr ⟨by omega, by omega⟩
      unfold cover at *
      rw [countP_cons_of_pos self]
      omega

/-- A region over the whole space, rendered into a view whose range is the whole
space, fails the assertion of `int128_get64`. -/
theorem renderGaps_whole (ordered : Ordered rs) (inSpace : InSpace rs) (hq : q ∈ rs)
    (whole : q.addr.size = spaceSize) : renderGaps mr readonly rs 0 spaceSize offset ≠ .ok out := by
  have hlo := flat_lo q
  have hhi := flat_hi q
  obtain ⟨q_nonneg, q_le⟩ := inSpace q hq
  cases rs with
  | nil => cases hq
  | cons r rs =>
    obtain ⟨nonempty, before, _⟩ := ordered_cons.mp ordered
    have first : q = r := by
      obtain rfl | later := mem_cons.mp hq
      · rfl
      · have := before q later
        have := (inSpace r mem_cons_self).1
        omega
    subst first
    have start : 0 = q.addr.start := by omega
    have notPast : ¬ 0 ≥ q.addr.end := by
      show ¬ hi q ≤ 0
      omega
    intro h
    rw [renderGaps, if_neg (by omega), if_neg notPast, if_neg (by omega), skipRange, if_pos start]
      at h
    rw [whole] at h
    cases h

end

end QemuStm32.Memory
