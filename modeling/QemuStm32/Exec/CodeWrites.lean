import QemuStm32.Exec.BlockRuns

/-!
# Writes to code

`tb_invalidate_phys_page_fast` in the states that runs reach.

* `hitOn_iff`: the blocks that a range in one page hits are those with a byte of code in it, as
  far as the loop computes where their code is;
* `fast_cases`: the bitmap is only used to skip a walk that would invalidate nothing;
* `codeWrite_iff`: which writes leave no block behind whose code they changed.
-/

namespace QemuStm32.Tb

open Runs SlotLists List

/-- A byte of the guest code of a block, on its first page or on its second one. -/
def InCode (k : Nat) (b : TranslationBlock) (a : Nat) : Prop :=
  (b.physPc k ≤ a ∧ a < b.physPc k + b.size ∧ a < b.page0 + 2 ^ k) ∨
    ∃ addr, b.page1 = some addr ∧ addr ≤ a ∧ a < addr + (b.pc % 2 ^ k + b.size - 2 ^ k)

/-- A live block with code among the bytes that were written. -/
def Stale (k : Nat) (s : State) (start len tb : Nat) : Prop :=
  s.live tb = true ∧ ∃ a, start ≤ a ∧ a < start + len ∧ InCode k (s.tbs tb) a

/-- A live block whose code ends with its second page, where the write is; the write is not to
the code on its first page. -/
def FillsSecond (k : Nat) (s : State) (start len tb : Nat) : Prop :=
  OnPage k s (tb, 1) (start / 2 ^ k) ∧ (s.tbs tb).pc % 2 ^ k + (s.tbs tb).size = 2 * 2 ^ k ∧
    ¬(OnPage k s (tb, 0) (start / 2 ^ k) ∧ Hit k s start (start + len) (tb, 0))

section
variable {k n rounds start len tb : Nat} {s : State}

/-! ## Ranges in one page -/

variable {a : Nat} {x : Node} {t : State}

/-- The bytes of a range that does not leave its page. -/
theorem page_add_mod {p : Nat} (pos : 0 < p) (within : start % p + len ≤ p) (le : start ≤ a)
    (lt : a < start + len) : a / p = start / p ∧ start / p * p + a % p = a := by
  have split := Nat.div_add_mod' start p
  have same : a / p = start / p := by
    rw [Nat.div_eq_iff pos]
    omega
  exact ⟨same, same ▸ Nat.div_add_mod' a p⟩

theorem hit_iff (x : Node) (end_ : Nat) : Hit k s start end_ x ↔
    start < (part k (s.tbs x.1) x.2).2 ∧ (part k (s.tbs x.1) x.2).1 < end_ := by
  simp [Hit, hits]

/-- The page of an entry by its address. -/
theorem OnPage.addr {i : Nat} (on : OnPage k s x i) (spans : Spans k (s.tbs x.1)) :
    (s.tbs x.1).pageAddr x.2 = some (i * 2 ^ k) := by
  obtain ⟨-, addr, page, here⟩ := on
  have aligned : addr % 2 ^ k = 0 := by
    obtain ⟨t, m⟩ := x
    match m with
    | 0 =>
      cases page
      exact spans.aligned.1
    | 1 => exact spans.aligned.2 addr page
  rw [page, ← here, Nat.div_mul_cancel (Nat.dvd_of_mod_eq_zero aligned)]

/-- The loop hits an entry exactly if it covers one of the bytes. -/
theorem hit_iff_covers (on : OnPage k s x (start / 2 ^ k)) (spans : Spans k (s.tbs x.1))
    (some : 0 < len) (within : start % 2 ^ k + len ≤ 2 ^ k) :
    Hit k s start (start + len) x ↔
      ∃ a, start ≤ a ∧ a < start + len ∧ Covers k s x (a % 2 ^ k) := by
  have pos := Nat.two_pow_pos k
  have page := on.addr spans
  have split := Nat.div_add_mod' start (2 ^ k)
  obtain ⟨t, m⟩ := x
  have code : 0 < (s.tbs t).size := spans.code
  rw [hit_iff]
  unfold Covers
  match m with
  | 0 =>
    have first : (s.tbs t).page0 = start / 2 ^ k * 2 ^ k := Option.some.inj page
    simp only [part, bitmapPart, TranslationBlock.physPc, first]
    constructor
    · rintro ⟨behind, before⟩
      -- the first byte of both
      have lower := Nat.le_max_left start (start / 2 ^ k * 2 ^ k + (s.tbs t).pc % 2 ^ k)
      have upper : max start (start / 2 ^ k * 2 ^ k + (s.tbs t).pc % 2 ^ k) < start + len := by
        omega
      have byte := (page_add_mod pos within lower upper).2
      exact ⟨_, lower, upper, by omega, by omega⟩
    · rintro ⟨a, lower, upper, covered⟩
      have byte := (page_add_mod pos within lower upper).2
      omega
  | 1 =>
    have second : (s.tbs t).page1 = .some (start / 2 ^ k * 2 ^ k) := page
    simp only [part, bitmapPart, second, Option.getD_some]
    constructor
    · rintro ⟨behind, -⟩
      have upper : start < start + len := by omega
      exact ⟨start, le_rfl, upper, by omega, by omega⟩
    · rintro ⟨a, lower, upper, covered⟩
      have byte := (page_add_mod pos within lower upper).2
      omega

/-- Where the code of a block is, its entry covers it, unless it is a whole second page. -/
theorem covers_of_inCode (live : s.live tb = true) (spans : Spans k (s.tbs tb))
    (code : InCode k (s.tbs tb) a) :
    (∃ m, OnPage k s (tb, m) (a / 2 ^ k) ∧ Covers k s (tb, m) (a % 2 ^ k)) ∨
      OnPage k s (tb, 1) (a / 2 ^ k) ∧
        (s.tbs tb).pc % 2 ^ k + (s.tbs tb).size = 2 * 2 ^ k := by
  have pos := Nat.two_pow_pos k
  have most := spans.most
  unfold Covers
  obtain ⟨lower, upper, inside⟩ | ⟨addr, page, lower, upper⟩ := code
  · left
    have whole := Nat.div_mul_cancel (Nat.dvd_of_mod_eq_zero spans.aligned.1)
    unfold TranslationBlock.physPc at lower upper
    have same : (s.tbs tb).page0 / 2 ^ k = a / 2 ^ k := by
      rw [eq_comm, Nat.div_eq_iff pos]
      omega
    have byte := Nat.div_add_mod' a (2 ^ k)
    rw [← same] at byte
    refine ⟨0, ⟨live, _, rfl, same⟩, ?_⟩
    simp only [bitmapPart]
    omega
  · have whole := Nat.div_mul_cancel (Nat.dvd_of_mod_eq_zero (spans.aligned.2 addr page))
    have same : addr / 2 ^ k = a / 2 ^ k := by
      rw [eq_comm, Nat.div_eq_iff pos]
      omega
    have byte := Nat.div_add_mod' a (2 ^ k)
    rw [← same] at byte
    have on : OnPage k s (tb, 1) (a / 2 ^ k) := ⟨live, addr, page, same⟩
    by_cases fills : (s.tbs tb).pc % 2 ^ k + (s.tbs tb).size = 2 * 2 ^ k
    · exact .inr ⟨on, fills⟩
    have wraps : ((s.tbs tb).pc + (s.tbs tb).size) % 2 ^ k =
        (s.tbs tb).pc % 2 ^ k + (s.tbs tb).size - 2 ^ k := by
      rw [← Nat.mod_add_mod, Nat.mod_eq_sub_mod (by omega), Nat.mod_eq_of_lt (by omega)]
    refine .inl ⟨1, on, ?_⟩
    simp only [bitmapPart]
    omega

theorem inCode_of_fills (spans : Spans k (s.tbs tb)) (on : OnPage k s (tb, 1) (a / 2 ^ k))
    (fills : (s.tbs tb).pc % 2 ^ k + (s.tbs tb).size = 2 * 2 ^ k) : InCode k (s.tbs tb) a := by
  have page : (s.tbs tb).page1 = some (a / 2 ^ k * 2 ^ k) := on.addr spans
  have split := Nat.div_add_mod' a (2 ^ k)
  exact .inr ⟨_, page, by omega, by omega⟩

/-- Once the blocks that are hit are gone, no other one has code in the range. -/
theorem fresh_of_live (spans : ∀ tb, s.live tb = true → Spans k (s.tbs tb)) (some : 0 < len)
    (within : start % 2 ^ k + len ≤ 2 ^ k) (tbs : t.tbs = s.tbs)
    (live : ∀ tb, t.live tb = true → s.live tb = true ∧ ¬HitOn k s start (start + len) tb)
    (none : ∀ tb, ¬FillsSecond k s start len tb) (tb : Nat) : ¬Stale k t start len tb := by
  rintro ⟨alive, a, lower, upper, code⟩
  obtain ⟨alive, notHit⟩ := live tb alive
  rw [tbs] at code
  have here := (page_add_mod (Nat.two_pow_pos k) within lower upper).1
  obtain ⟨m, on, covers⟩ | ⟨on, fills⟩ := covers_of_inCode alive (spans tb alive) code
  · rw [here] at on
    exact notHit ⟨m, on, (hit_iff_covers on (spans tb alive) some within).mpr
      ⟨a, lower, upper, covers⟩⟩
  · rw [here] at on
    exact none tb ⟨on, fills, fun first => notHit ⟨0, first⟩⟩

/-! ## The bitmap -/

/-- The bits that are tested are those of the bytes written. -/
theorem tested_eq_zero {tab : List Byte} {byte : Byte} {offset : Nat}
    (found : tab[offset / 8]? = some byte) (fits : offset % 8 + len ≤ 8)
    (zero : (byte.toNat >>> (offset % 8)) &&& (2 ^ len - 1) = 0) {j : Nat} (before : j < len) :
    bit tab (offset + j) = false := by
  have tested : ((byte.toNat >>> (offset % 8)) &&& (2 ^ len - 1)).testBit j = false := by
    rw [zero, Nat.zero_testBit]
  rw [Nat.testBit_and, Nat.testBit_shiftRight, Nat.testBit_two_pow_sub_one,
    decide_eq_true before, Bool.and_true] at tested
  have index : (offset + j) / 8 = offset / 8 ∧ (offset + j) % 8 = offset % 8 + j := by omega
  unfold bit
  rw [index.1, index.2, found]
  exact tested

/-- An aligned write stays in its page and in its byte of the bitmap. -/
theorem aligned_within (wide : 3 ≤ k) (size : len ∈ [1, 2, 4, 8]) (aligned : len ∣ start) :
    0 < len ∧ start % 2 ^ k + len ≤ 2 ^ k ∧ start % 2 ^ k % 8 + len ≤ 8 := by
  have eight : 8 ∣ 2 ^ k := Nat.pow_dvd_pow 2 wide
  have small := Nat.mod_lt start (Nat.two_pow_pos k)
  have divides : len ∣ 8 := by
    simp only [mem_cons, not_mem_nil, or_false] at size
    obtain rfl | rfl | rfl | rfl := size <;> decide
  have offset : len ∣ start % 2 ^ k := (Nat.dvd_mod_iff (divides.trans eight)).mpr aligned
  refine ⟨Nat.pos_of_dvd_of_pos divides (by decide), ?_, ?_⟩
  · exact Nat.le_of_lt_add_of_dvd (Nat.add_lt_add_right small len)
      (Nat.dvd_add offset (Nat.dvd_refl len)) (divides.trans eight)
  · exact Nat.le_of_lt_add_of_dvd (Nat.add_lt_add_right (Nat.mod_lt _ (by decide)) len)
      (Nat.dvd_add ((Nat.dvd_mod_iff divides).mpr offset) (Nat.dvd_refl len)) divides

/-- The bitmap is used to skip a walk only if the walk would invalidate nothing. -/
theorem fast_cases (rounds : Nat) (wide : 3 ≤ k) (bitmapped : Bitmapped k s)
    (spans : ∀ tb, s.live tb = true → Spans k (s.tbs tb)) (size : len ∈ [1, 2, 4, 8])
    (aligned : len ∣ start) :
    tbInvalidatePhysPageFast k rounds start len s =
        tbInvalidatePhysPageRange k rounds start (start + len) true s ∨
      tbInvalidatePhysPageFast k rounds start len s = .ok s ∧
        ∀ tb, ¬HitOn k s start (start + len) tb := by
  obtain ⟨some, within, fits⟩ := aligned_within wide size aligned
  unfold tbInvalidatePhysPageFast
  cases built : s.codeBitmap (start / 2 ^ k) with
  | none => exact .inl rfl
  | some tab =>
    obtain ⟨length, covered⟩ := bitmapped _ tab built
    have inside : start % 2 ^ k / 8 < tab.length := by omega
    dsimp only
    rw [getElem?_eq_getElem inside]
    dsimp only
    by_cases zero : (tab[start % 2 ^ k / 8].toNat >>> (start % 2 ^ k % 8)) &&& (2 ^ len - 1) = 0
    · rw [if_neg (not_not.mpr zero)]
      refine .inr ⟨rfl, ?_⟩
      rintro tb ⟨m, on, hit⟩
      obtain ⟨a, lower, upper, covers⟩ := (hit_iff_covers on (spans tb on.1) some within).mp hit
      have byte := (page_add_mod (Nat.two_pow_pos k) within lower upper).2
      have split := Nat.div_add_mod' start (2 ^ k)
      have clear := tested_eq_zero (getElem?_eq_getElem inside) fits zero
        (show a - start < len by omega)
      rw [show start % 2 ^ k + (a - start) = a % 2 ^ k by omega, covered _ on _ covers] at clear
      cases clear
    · rw [if_pos zero]
      exact .inl rfl

/-! ## Writes -/

theorem codeWrite_iff_from (wide : 3 ≤ k) (wl : WellLinked k s) (few : AtMost n s)
    (enough : 2 * n < rounds) (bitmapped : Bitmapped k s)
    (spans : ∀ tb, s.live tb = true → Spans k (s.tbs tb)) (size : len ∈ [1, 2, 4, 8])
    (aligned : len ∣ start) :
    (∃ t, tbInvalidatePhysPageFast k rounds start len s = .ok t ∧
        ∀ tb, ¬Stale k t start len tb) ↔
      ¬Twice k s start (start + len) ∧ ∀ tb, ¬FillsSecond k s start len tb := by
  obtain ⟨some, within, fits⟩ := aligned_within wide size aligned
  -- in either case the blocks that are hit are gone
  have spec : FailsIff (Twice k s start (start + len)) (fun t => t.tbs = s.tbs ∧
      ∀ tb, t.live tb = true ↔ s.live tb = true ∧ ¬HitOn k s start (start + len) tb)
      (tbInvalidatePhysPageFast k rounds start len s) := by
    obtain same | ⟨same, none⟩ := fast_cases rounds wide bitmapped spans size aligned
    · rw [same]
      exact (range_spec wide wl few enough true).imp Iff.rfl
        fun t ranged => ⟨ranged.tbs, ranged.live⟩
    · rw [same]
      refine ⟨?_, rfl, fun tb => ⟨fun live => ⟨live, none tb⟩, And.left⟩⟩
      rintro ⟨tb, on, -, hit, -⟩
      exact none tb ⟨0, on, hit⟩
  constructor
  · rintro ⟨t, ended, fresh⟩
    obtain ⟨once, tbs, live⟩ := spec.of_ok ended
    refine ⟨once, fun tb ⟨on, fills, missed⟩ => ?_⟩
    have span := spans tb on.1
    have notHit : ¬HitOn k s start (start + len) tb := by
      rintro ⟨m, on', hit⟩
      match m with
      | 0 => exact missed ⟨on', hit⟩
      | 1 =>
        obtain ⟨a, -, -, -, covers⟩ := (hit_iff_covers on' span some within).mp hit
        have empty : ((s.tbs tb).pc + (s.tbs tb).size) % 2 ^ k = 0 := by
          rw [← Nat.mod_add_mod, fills, Nat.mul_mod_left]
        simp only [bitmapPart, empty] at covers
        omega
    refine fresh tb ⟨(live tb).mpr ⟨on.1, notHit⟩, start, le_rfl, by omega, ?_⟩
    rw [tbs]
    exact inCode_of_fills span on fills
  · rintro ⟨once, none⟩
    obtain ⟨t, ended, tbs, live⟩ := spec.ok once
    exact ⟨t, ended, fresh_of_live spans some within tbs (fun tb => (live tb).mp) none⟩

/-! ## Runs -/

/-- What holds in the states that runs reach. -/
structure Reached (k n : Nat) (s : State) : Prop where
  linked : WellLinked k s
  few : AtMost n s
  bitmap : Bitmapped k s
  spans : ∀ tb, s.live tb = true → Spans k (s.tbs tb)

theorem Reached.run (wide : 3 ≤ k) {es : List Event} (reached : Reached k n s)
    (enough : 2 * (n + es.length) < rounds) (allowed : StepsMeet (step k rounds) (Allowed k) s es)
    (fits : ∀ e ∈ es, TwoPages k e) (ran : run (step k rounds) s es = .ok t) :
    Reached k (n + es.length) t := by
  induction es generalizing s n with
  | nil =>
    cases ran
    exact reached
  | cons e es ih =>
    obtain ⟨here, allowed⟩ := allowed
    rw [length_cons] at enough ⊢
    obtain ⟨u, stepped, ran⟩ := run_cons_ok.mp ran
    obtain ⟨-, kept⟩ := kept_of_step wide reached.linked reached.few (by omega) here stepped
    have next : Reached k (n + 1) u := ⟨kept.linked, kept.few, kept.bitmap reached.bitmap,
      kept.spans (fits e mem_cons_self) reached.spans⟩
    rw [show n + (es.length + 1) = n + 1 + es.length by omega] at enough ⊢
    exact ih next enough (allowed u stepped) (fun e' mem => fits e' (.tail _ mem)) ran

theorem reached_of_run (wide : 3 ≤ k) {es : List Event} (enough : 2 * es.length < rounds)
    (allowed : StepsMeet (step k rounds) (Allowed k) initial es) (fits : ∀ e ∈ es, TwoPages k e)
    (ran : run (step k rounds) initial es = .ok s) : Reached k es.length s := by
  have empty : Reached k 0 initial :=
    ⟨wellLinked_of_empty (fun _ => rfl) (fun _ => rfl) (fun _ => rfl) fun _ _ => rfl,
      ⟨[], Nat.le_refl 0, nofun⟩, nofun, nofun⟩
  rw [← Nat.zero_add es.length] at enough ⊢
  exact empty.run wide enough allowed fits ran

end

/-- In a state that a run reached, the bitmap skips no invalidation; and after an aligned write
no block with changed code is live, exactly if no block is hit twice and no block fills its
second page there. -/
theorem codeWrite_iff {k rounds start len : Nat} (wide : 3 ≤ k) {es : List Event} {s : State}
    (enough : 2 * es.length < rounds) (allowed : StepsMeet (step k rounds) (Allowed k) initial es)
    (fits : ∀ e ∈ es, TwoPages k e) (ran : run (step k rounds) initial es = .ok s)
    (size : len ∈ [1, 2, 4, 8]) (aligned : len ∣ start) :
    (tbInvalidatePhysPageFast k rounds start len s =
        tbInvalidatePhysPageRange k rounds start (start + len) true s ∨
      tbInvalidatePhysPageFast k rounds start len s = .ok s ∧
        ∀ tb, ¬HitOn k s start (start + len) tb) ∧
    ((∃ t, tbInvalidatePhysPageFast k rounds start len s = .ok t ∧
        ∀ tb, ¬Stale k t start len tb) ↔
      ¬Twice k s start (start + len) ∧ ∀ tb, ¬FillsSecond k s start len tb) := by
  have reached := reached_of_run wide enough allowed fits ran
  exact ⟨fast_cases rounds wide reached.bitmap reached.spans size aligned,
    codeWrite_iff_from wide reached.linked reached.few enough reached.bitmap reached.spans size
      aligned⟩

/-- Ten writes next to the code of a page: its bitmap is built. -/
def watched : List Event := folded ++ List.replicate 10 (.invalidate 0x10 0x14 true)

instance (k : Nat) : ∀ e, Decidable (TwoPages k e)
  | .link .. => inferInstanceAs (Decidable (_ ∧ _ ∧ (_ ↔ _) ∧ _))
  | .addJump .. | .found .. | .invalidate .. | .flush => .isTrue trivial

theorem codeWrite_watched : ∃ s, run (step 10 100) initial watched = .ok s ∧
    (s.codeBitmap 0).isSome = true ∧
    (tbInvalidatePhysPageFast 10 100 0x3fc 4 s =
        tbInvalidatePhysPageRange 10 100 0x3fc 0x400 true s ∨
      tbInvalidatePhysPageFast 10 100 0x3fc 4 s = .ok s ∧ ∀ tb, ¬HitOn 10 s 0x3fc 0x400 tb) ∧
    ((∃ t, tbInvalidatePhysPageFast 10 100 0x3fc 4 s = .ok t ∧ ∀ tb, ¬Stale 10 t 0x3fc 4 tb) ↔
      ¬Twice 10 s 0x3fc 0x400 ∧ ∀ tb, ¬FillsSecond 10 s 0x3fc 4 tb) := by
  have built : (run (step 10 100) initial watched).toOption.map
      (fun s => (s.codeBitmap 0).isSome) = some true := by decide +kernel
  obtain ⟨s, ran, built⟩ := exists_of_observed built
  exact ⟨s, ran, built, codeWrite_iff (by decide) (by decide) (by decide +kernel)
    (by decide +kernel) ran (by decide) (by decide)⟩

/-- A block around a page, so that its first and last bytes are next to each other. -/
def wrapped : List Event := [.link 0 2 0x400 (fun _ => false) 2 (some 0)]

/-- A block up to the end of its second page. -/
def filling : List Event := [.link 0 4 0x7fc (fun _ => false) 4 (some 0x400)]

/-- A write to both ends of `wrapped` fails; after a write to the second page of `filling` the
block is live. -/
theorem codeWrite_missed :
    (StepsMeet (step 10 100) (Allowed 10) initial wrapped ∧ (∀ e ∈ wrapped, TwoPages 10 e) ∧
      ¬∃ s t, run (step 10 100) initial wrapped = .ok s ∧
        tbInvalidatePhysPageFast 10 100 0 4 s = .ok t) ∧
    (StepsMeet (step 10 100) (Allowed 10) initial filling ∧ (∀ e ∈ filling, TwoPages 10 e) ∧
      ∃ s t, run (step 10 100) initial filling = .ok s ∧
        tbInvalidatePhysPageFast 10 100 0x400 4 s = .ok t ∧ Stale 10 t 0x400 4 0) := by
  have failed : (run (step 10 100) initial wrapped >>=
      tbInvalidatePhysPageFast 10 100 0 4).isOk = false := by decide +kernel
  have passed : (run (step 10 100) initial filling >>=
      tbInvalidatePhysPageFast 10 100 0x400 4).toOption.map
        (fun t => (t.live 0, (t.tbs 0).page1, (t.tbs 0).pc, (t.tbs 0).size)) =
      some (true, some 0x400, 4, 0x7fc) := by decide +kernel
  refine ⟨⟨by decide +kernel, by decide +kernel, fun ⟨s, t, ran, wrote⟩ => ?_⟩,
    by decide +kernel, by decide +kernel, ?_⟩
  · rw [ran, ok_bind, wrote] at failed
    cases failed
  · obtain ⟨t, ended, fields⟩ := exists_of_observed passed
    obtain ⟨s, ran, wrote⟩ := bind_ok_iff.mp ended
    simp only [Prod.mk.injEq] at fields
    obtain ⟨live, page, pc, size⟩ := fields
    refine ⟨s, t, ran, wrote, live, 0x400, by decide, by decide,
      .inr ⟨0x400, page, by decide, ?_⟩⟩
    rw [pc, size]
    decide

end QemuStm32.Tb
