import QemuStm32.Lib.Intervals
import QemuStm32.Memory.Visits

/-!
# One round of rendering

What one round of the loop of `render_memory_region` does with a range of the
view, for a region that does not start strictly inside it: the region is behind
the range, hidden by it, or put in the gap before it.
-/

namespace QemuStm32.Memory

open Runs Intervals Interval

instance : Interval FlatRange := ⟨fun r => r.addr.start, fun r => r.addr.start + r.addr.size⟩
instance : Interval Visit := ⟨fun v => v.clip.start, fun v => v.clip.start + v.clip.size⟩

theorem flat_lo (r : FlatRange) : lo r = r.addr.start := rfl
theorem flat_hi (r : FlatRange) : hi r = r.addr.start + r.addr.size := rfl

/-- The ranges lie in the 64-bit space. -/
def InSpace (rs : List FlatRange) : Prop := ∀ r ∈ rs, 0 ≤ lo r ∧ hi r ≤ spaceSize

variable {now base' remain' : Int} {offset' : Nat}

theorem advanceOffset_ok (offset : Nat) (nonneg : 0 ≤ now) (lt : now < spaceSize) :
    advanceOffset offset now = .ok ((offset + now.toNat) % 2 ^ 64) := by
  unfold advanceOffset get64
  rw [if_pos ⟨nonneg, lt⟩]
  rfl

/-- What the loop may assume of its variables. The last two fields exclude the
two inputs it cannot handle. -/
structure Ready (rs : List FlatRange) (base remain : Int) (offset : Nat) : Prop where
  ordered : Ordered rs
  inSpace : InSpace rs
  base_nonneg : 0 ≤ base
  remain_nonneg : 0 ≤ remain
  end_le : base + remain ≤ spaceSize
  offset_le : 0 < remain → offset + remain ≤ spaceSize
  outside : 0 < remain → ∀ r ∈ rs, ¬ (lo r < base ∧ base < hi r)
  not_whole : remain = spaceSize → ∀ r ∈ rs, r.addr.size ≠ spaceSize

/-- What one round does: the new range it inserts before `r`, if any, and the
part of the region it has dealt with. -/
structure Round (mr : RegionInfo) (readonly : Bool) (r : FlatRange) (base remain : Int)
    (offset : Nat) (fresh : List FlatRange) (now : Int) (offset' : Nat) : Prop where
  nonneg : 0 ≤ now
  le : now ≤ remain
  offset_eq : 0 < remain - now → (offset' : Int) = offset + now
  past : 0 < remain - now → hi r ≤ base + now ∧ (now = 0 ∨ hi r = base + now)
  inserted : ∀ s ∈ fresh, s = freshRange mr readonly offset base s.addr.size ∧ 0 < s.addr.size ∧
    hi s ≤ lo r ∧ hi s ≤ base + remain
  covered : ∀ a, base ≤ a → a < base + now → covers a r = true ∨ ∃ s ∈ fresh, covers a s = true
  single : fresh = [] ∨ ∃ s, fresh = [s]

theorem skipRange_ok (r : FlatRange) {remain : Int} (offset : Nat) (nonneg : 0 ≤ remain)
    (size : 0 ≤ r.addr.size) (lt : min remain r.addr.size < spaceSize) :
    skipRange r r.addr.start remain offset = .ok (r.addr.start + min remain r.addr.size,
      remain - min remain r.addr.size, (offset + (min remain r.addr.size).toNat) % 2 ^ 64) := by
  unfold skipRange
  rw [if_pos rfl]
  dsimp only
  rw [advanceOffset_ok offset (by omega) lt]
  rfl

/-- The offset after `now` bytes, as long as some remain. -/
theorem offset_step {offset : Nat} {remain : Int} (le : offset + remain ≤ spaceSize)
    (nonneg : 0 ≤ now) (left : 0 < remain - now) :
    (((offset + now.toNat) % 2 ^ 64 : Nat)) = offset + now := by
  simp only [spaceSize] at le
  omega

section
variable {mr : RegionInfo} {readonly : Bool} {r : FlatRange} {rs rest : List FlatRange}
  {base remain : Int} {offset : Nat}

theorem renderGaps_behind (left : remain ≠ 0) (behind : hi r ≤ base)
    (h : renderGaps mr readonly rs base remain offset = .ok rest) :
    renderGaps mr readonly (r :: rs) base remain offset = .ok (r :: rest) := by
  have past : base ≥ r.addr.end := behind
  rw [renderGaps, if_neg left, if_pos past, h]
  rfl

theorem renderGaps_at (left : remain ≠ 0) (start : lo r ≤ base) (stop : base < hi r)
    (skip : skipRange r base remain offset = .ok (base', remain', offset'))
    (h : renderGaps mr readonly rs base' remain' offset' = .ok rest) :
    renderGaps mr readonly (r :: rs) base remain offset = .ok (r :: rest) := by
  have notPast : ¬ base ≥ r.addr.end := Int.not_le.mpr stop
  have notBefore : ¬ base < r.addr.start := Int.not_lt.mpr start
  rw [renderGaps, if_neg left, if_neg notPast, if_neg notBefore, skip]
  exact bind_ok_iff.mpr ⟨_, rfl, bind_ok_iff.mpr ⟨rest, h, rfl⟩⟩

theorem renderGaps_before {offset'' : Nat} (left : remain ≠ 0) (start : base < lo r)
    (stop : base < hi r) (hnow : min remain (lo r - base) = now)
    (advance : advanceOffset offset now = .ok offset')
    (skip : skipRange r (base + now) (remain - now) offset' = .ok (base', remain', offset''))
    (h : renderGaps mr readonly rs base' remain' offset'' = .ok rest) :
    renderGaps mr readonly (r :: rs) base remain offset =
      .ok (freshRange mr readonly offset base now :: r :: rest) := by
  subst hnow
  have notPast : ¬ base ≥ r.addr.end := Int.not_le.mpr stop
  have ahead : base < r.addr.start := start
  rw [renderGaps, if_neg left, if_neg notPast, if_pos ahead]
  exact bind_ok_iff.mpr ⟨_, advance, bind_ok_iff.mpr ⟨_, skip, bind_ok_iff.mpr ⟨rest, h, rfl⟩⟩⟩

/-- What a round does, and that it goes on with the rest of the view. -/
def RoundOk (mr : RegionInfo) (readonly : Bool) (r : FlatRange) (rs : List FlatRange)
    (base remain : Int) (offset : Nat) : Prop :=
  ∃ fresh now offset', Round mr readonly r base remain offset fresh now offset' ∧
    ∀ rest, renderGaps mr readonly rs (base + now) (remain - now) offset' = .ok rest →
      renderGaps mr readonly (r :: rs) base remain offset = .ok (fresh ++ r :: rest)

theorem round_behind (left : 0 < remain) (behind : hi r ≤ base) :
    RoundOk mr readonly r rs base remain offset := by
  refine ⟨[], 0, offset, ⟨by omega, by omega, by simp, ?_, nofun, by omega, .inl rfl⟩, ?_⟩
  · exact fun _ => ⟨by omega, .inl rfl⟩
  · intro rest hrest
    rw [Int.add_zero, Int.sub_zero] at hrest
    exact renderGaps_behind (by omega) behind hrest

/-- The region starts where the range does, and is hidden up to its end. -/
theorem round_at (left : 0 < remain) (start : base = lo r) (nonempty : lo r < hi r)
    (offset_le : offset + remain ≤ spaceSize) (lt : min remain r.addr.size < spaceSize) :
    RoundOk mr readonly r rs base remain offset := by
  have hlo := flat_lo r
  have hhi := flat_hi r
  have skip := skipRange_ok r offset (by omega) (by omega) lt
  rw [← hlo, ← start] at skip
  refine ⟨[], min remain r.addr.size, (offset + (min remain r.addr.size).toNat) % 2 ^ 64,
    ⟨by omega, by omega, ?_, ?_, nofun, ?_, .inl rfl⟩, ?_⟩
  · exact fun more => offset_step offset_le (by omega) more
  · exact fun more => ⟨by omega, by omega⟩
  · intro a ha hlt
    exact .inl (covers_iff.mpr (by omega))
  · intro rest hrest
    exact renderGaps_at (by omega) (by omega) (by omega) skip hrest

/-- All that is left of the region fits before the range. -/
theorem round_last (left : 0 < remain) (nonempty : lo r < hi r) (in_space : hi r ≤ spaceSize)
    (nonneg : 0 ≤ base) (short : base + remain ≤ lo r) :
    RoundOk mr readonly r rs base remain offset := by
  have hhi := flat_hi r
  have lt : remain < spaceSize := by omega
  have advance := advanceOffset_ok offset (Int.le_of_lt left) lt
  -- nothing is left for the second half of the round
  have skip : ∃ offset', skipRange r (base + remain) (remain - remain)
      ((offset + remain.toNat) % 2 ^ 64) = .ok (base + remain, remain - remain, offset') := by
    rw [Int.sub_self]
    by_cases touch : base + remain = r.addr.start
    · have none : min 0 r.addr.size = 0 := Int.min_eq_left (by omega)
      rw [touch, skipRange_ok r _ (by omega) (by omega) (by omega), none, Int.add_zero]
      exact ⟨_, rfl⟩
    · exact ⟨_, by rw [skipRange, if_neg touch]⟩
  obtain ⟨offset', skip⟩ := skip
  refine ⟨[freshRange mr readonly offset base remain], remain, offset',
    ⟨by omega, by omega, by omega, by omega, ?_, ?_, .inr ⟨_, rfl⟩⟩, ?_⟩
  · intro s hs
    obtain rfl := List.mem_singleton.mp hs
    exact ⟨rfl, left, short, by rw [flat_hi]; exact Int.le_refl _⟩
  · intro a ha hlt
    exact .inr ⟨_, List.mem_singleton_self _, covers_iff.mpr ⟨ha, hlt⟩⟩
  · intro rest hrest
    exact renderGaps_before (by omega) (by omega) (by omega) (by omega) advance skip hrest

/-- The region fills the gap before the range, and then is hidden by it. -/
theorem round_before (left : 0 < remain) (nonempty : lo r < hi r) (nonneg : 0 ≤ base)
    (end_le : base + remain ≤ spaceSize) (before : base < lo r) (long : lo r < base + remain)
    (offset_le : offset + remain ≤ spaceSize) : RoundOk mr readonly r rs base remain offset := by
  have hlo := flat_lo r
  have hhi := flat_hi r
  have gap : 0 ≤ lo r - base := by omega
  have gap_lt : lo r - base < spaceSize := by omega
  have advance := advanceOffset_ok offset gap gap_lt
  have step := offset_step offset_le gap (by omega)
  generalize (offset + (lo r - base).toNat) % 2 ^ 64 = offset₁ at advance step
  generalize hremain : remain - (lo r - base) = remain₁
  have rest_lt : min remain₁ r.addr.size < spaceSize := by omega
  have skip := skipRange_ok r offset₁ (by omega) (by omega) rest_lt
  have offset₁_le : offset₁ + remain₁ ≤ spaceSize := by omega
  have start : r.addr.start = base + (lo r - base) := by omega
  rw [start] at skip
  refine ⟨[freshRange mr readonly offset base (lo r - base)],
    lo r - base + min remain₁ r.addr.size, (offset₁ + (min remain₁ r.addr.size).toNat) % 2 ^ 64,
    ⟨by omega, by omega, ?_, ?_, ?_, ?_, .inr ⟨_, rfl⟩⟩, ?_⟩
  · intro more
    rw [offset_step offset₁_le (by omega) (by omega)]
    omega
  · exact fun more => ⟨by omega, by omega⟩
  · intro s hs
    obtain rfl := List.mem_singleton.mp hs
    have stop : hi (freshRange mr readonly offset base (lo r - base)) = base + (lo r - base) := rfl
    exact ⟨rfl, Int.sub_pos_of_lt before, by omega, by omega⟩
  · intro a ha hlt
    by_cases inside : a < lo r
    · refine .inr ⟨_, List.mem_singleton_self _, covers_iff.mpr ⟨ha, ?_⟩⟩
      show a < base + (lo r - base)
      omega
    · exact .inl (covers_iff.mpr (by omega))
  · intro rest hrest
    refine renderGaps_before (by omega) before (by omega) (by omega) advance
      (by rw [hremain]; exact skip) ?_
    rw [Int.add_assoc, ← hremain, Int.sub_sub, hremain]
    exact hrest

/-- A round of the loop, for a region that does not start inside the range. -/
theorem renderGaps_round (h : Ready (r :: rs) base remain offset) (left : 0 < remain) :
    RoundOk mr readonly r rs base remain offset := by
  obtain ⟨nonempty, _, _⟩ := ordered_cons.mp h.ordered
  obtain ⟨lo_nonneg, hi_le⟩ := h.inSpace r List.mem_cons_self
  have outside := h.outside left r List.mem_cons_self
  have offset_le := h.offset_le left
  by_cases behind : hi r ≤ base
  · exact round_behind left behind
  by_cases before : base < lo r
  · by_cases short : base + remain ≤ lo r
    · exact round_last left nonempty hi_le h.base_nonneg short
    · exact round_before left nonempty h.base_nonneg h.end_le before (by omega) offset_le
  · have not_whole : ¬ (remain = spaceSize ∧ r.addr.size = spaceSize) :=
      fun ⟨hr, hs⟩ => h.not_whole hr r List.mem_cons_self hs
    have hlo := flat_lo r
    have hhi := flat_hi r
    exact round_at left (by omega) nonempty offset_le (by omega)

end

end QemuStm32.Memory
