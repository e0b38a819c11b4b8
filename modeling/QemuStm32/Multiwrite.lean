import Mathlib

/-!
# Merging write requests

`bdrv_aio_multiwrite` of `block.c` sorts write requests by their first sector and
folds each one that touches its predecessor into a growing request. The data of the
predecessor are cut where the next request starts, so that what they had behind the
end of the next request is lost.
-/

namespace QemuStm32.Multiwrite

open List

abbrev Byte := BitVec 8

/-- A `QEMUIOVector`: its `size` is the number of bytes in all vectors. -/
abbrev Qiov := List (List Byte)

/-! ## Vectors -/

/-- The loop of `qemu_iovec_copy`: what is added to the destination. -/
def qemuIovecCopy (size : Nat) : Qiov → (skip done : Nat) → Qiov
  | [], _, _ => []
  | iov :: src, skip, done =>
    if done = size then []
    else if skip ≥ iov.length then qemuIovecCopy size src (skip - iov.length) done
    else if done + (iov.drop skip).length > size then [(iov.drop skip).take (size - done)]
    else iov.drop skip :: qemuIovecCopy size src 0 (done + (iov.drop skip).length)

def qemuIovecConcat (src : Qiov) (size : Nat) : Qiov := qemuIovecCopy size src 0 0

theorem qemuIovecCopy_flatten (size : Nat) (src : Qiov) {skip done : Nat} (h : done ≤ size) :
    (qemuIovecCopy size src skip done).flatten = (src.flatten.drop skip).take (size - done) := by
  induction src generalizing skip done with
  | nil => simp [qemuIovecCopy]
  | cons iov src ih =>
    unfold qemuIovecCopy
    split
    · rename_i all
      simp [all]
    split
    · rename_i whole
      rw [ih h, flatten_cons, drop_append, drop_eq_nil_of_le whole, nil_append]
    have keep : (iov :: src).flatten.drop skip = iov.drop skip ++ src.flatten := by
      rw [flatten_cons, drop_append_of_le_length (by omega)]
    split
    · rw [keep, take_append_of_le_length (by omega)]
      simp
    · have rest := @ih 0 (done + (iov.drop skip).length) (by omega)
      rw [keep, flatten_cons, rest, drop_zero, take_append,
        take_of_length_le (i := size - done) (by omega), Nat.sub_add_eq]

theorem qemuIovecConcat_flatten (src : Qiov) (size : Nat) :
    (qemuIovecConcat src size).flatten = src.flatten.take size := by
  simp [qemuIovecConcat, qemuIovecCopy_flatten size src (Nat.zero_le size)]

theorem qemuIovecCopy_ne_nil {size : Nat} {src : Qiov} {skip done : Nat} (h : done ≤ size) :
    ∀ iov ∈ qemuIovecCopy size src skip done, iov ≠ [] := by
  fun_induction qemuIovecCopy size src skip done with
  | case1 | case2 => simp
  | case3 _ _ _ _ _ _ ih => exact ih h
  | case4 iov src skip done more part exceeds =>
    simp only [mem_singleton, forall_eq, ne_eq, ← length_eq_zero_iff, length_take, length_drop]
    omega
  | case5 iov src skip done more part fits ih =>
    refine forall_mem_cons.mpr ⟨?_, ih (by omega)⟩
    simp only [ne_eq, ← length_eq_zero_iff, length_drop]
    omega

/-- What is copied of a vector depends on how much there is still room for. -/
theorem qemuIovecCopy_shift (size done d : Nat) (src : Qiov) :
    qemuIovecCopy (size + d) src 0 (done + d) = qemuIovecCopy size src 0 done := by
  induction src generalizing done with
  | nil => rfl
  | cons iov src ih =>
    simp only [qemuIovecCopy, Nat.add_right_cancel_iff, Nat.zero_sub, ih, drop_zero,
      Nat.add_sub_add_right, Nat.add_right_comm done d, gt_iff_lt, Nat.add_lt_add_iff_right]

theorem qemuIovecConcat_append {front : Qiov} (full : ∀ iov ∈ front, iov ≠ []) (src : Qiov)
    (n : Nat) :
    qemuIovecConcat (front ++ src) (front.flatten.length + n) = front ++ qemuIovecConcat src n := by
  unfold qemuIovecConcat
  induction front generalizing n with
  | nil => simp
  | cons iov front ih =>
    obtain ⟨first, rest⟩ := forall_mem_cons.mp full
    have positive := length_pos_iff.mpr first
    have shift := qemuIovecCopy_shift (front.flatten.length + n) 0 iov.length (front ++ src)
    rw [cons_append, qemuIovecCopy, flatten_cons, length_append, if_neg (by omega),
      if_neg (by omega), drop_zero, if_neg (by omega), cons_append, ← ih rest, ← shift]
    congr 2
    omega

/-- Of a whole vector the parts that have bytes are copied. -/
theorem qemuIovecConcat_whole (src : Qiov) (n : Nat) :
    qemuIovecConcat (qemuIovecConcat src src.flatten.length) n = qemuIovecConcat src n := by
  induction src generalizing n with
  | nil => rfl
  | cons iov src ih =>
    by_cases empty : iov = []
    · subst empty
      have drops : ∀ n, qemuIovecConcat ([] :: src) n = qemuIovecConcat src n := by
        intro n
        unfold qemuIovecConcat
        rw [qemuIovecCopy]
        split
        · rename_i zero
          cases src <;> simp [qemuIovecCopy, ← zero]
        · rfl
      rw [drops, drops]
      exact ih n
    · have full : ∀ v ∈ [iov], v ≠ [] := by simpa using empty
      have whole := qemuIovecConcat_append full src src.flatten.length
      simp only [flatten_singleton, singleton_append] at whole
      rw [flatten_cons, length_append, whole]
      by_cases short : n < iov.length
      · simp [qemuIovecConcat, qemuIovecCopy, short, empty]
      · obtain ⟨m, rfl⟩ := Nat.exists_eq_add_of_le (Nat.le_of_not_lt short)
        have split src := qemuIovecConcat_append full src m
        simp only [flatten_singleton, singleton_append] at split
        rw [split, split, ih]

/-! ## Requests -/

structure BlockRequest where
  sector : Int
  nbSectors : Int
  qiov : Qiov
  deriving DecidableEq, Repr

namespace BlockRequest

def stop (r : BlockRequest) : Int := r.sector + r.nbSectors

/-- The sector is written by the request. -/
def Covers (r : BlockRequest) (x : Int) : Prop := r.sector ≤ x ∧ x < r.stop

instance (r : BlockRequest) (x : Int) : Decidable (r.Covers x) :=
  inferInstanceAs (Decidable (_ ∧ _))

/-- What the request writes to a sector. -/
def data (r : BlockRequest) (x : Int) : List Byte :=
  (r.qiov.flatten.drop (512 * (x - r.sector).toNat)).take 512

/-- A request of the caller: it has as many bytes as its sectors, and its sectors are
those of some disk. -/
structure Valid (r : BlockRequest) : Prop where
  sector_nonneg : 0 ≤ r.sector
  nbSectors_nonneg : 0 ≤ r.nbSectors
  stop_lt : r.stop < 2 ^ 63
  size : (r.qiov.flatten.length : Int) = 512 * r.nbSectors

end BlockRequest

/-! ## Merging -/

def multiwriteReqCompare (req1 req2 : BlockRequest) : Int :=
  if req1.sector > req2.sector then 1 else if req1.sector < req2.sector then -1 else 0

/-- `qsort` with this comparison; which of two equal requests comes first is open. -/
structure Qsort where
  sort : List BlockRequest → List BlockRequest
  perm : ∀ reqs, (sort reqs).Perm reqs
  sorted : ∀ reqs, (sort reqs).Pairwise fun a b => multiwriteReqCompare a b ≤ 0

/-- Conversion to `int`. -/
def int32 (a : Int) : Int := (BitVec.ofInt 32 a).toInt

/-- Conversion to `int64_t`. -/
def int64 (a : Int) : Int := (BitVec.ofInt 64 a).toInt

/-- Conversion to `size_t`. -/
def sizeT (a : Int) : Nat := (BitVec.ofInt 64 a).toNat

/-- What the driver and the host contribute: `bdrv_merge_requests`, if there is one,
and `IOV_MAX`. -/
structure Host where
  mergeRequests : Option (BlockRequest → BlockRequest → Bool)
  iovMax : Nat

def oldreqLast (out : BlockRequest) : Int := int64 (out.sector + out.nbSectors)

def mergeable (host : Host) (out req : BlockRequest) : Bool :=
  (decide (req.sector ≤ oldreqLast out) ||
    (match host.mergeRequests with
      | some rule => rule out req
      | none => false)) &&
    !decide (out.qiov.length + req.qiov.length + 1 > host.iovMax)

/-- The request at `outidx` after another one is folded into it. -/
def merge (out req : BlockRequest) : BlockRequest :=
  let first := qemuIovecConcat out.qiov (sizeT ((req.sector - out.sector) * 512))
  let zeros : Qiov :=
    if req.sector > oldreqLast out then
      [List.replicate (sizeT ((req.sector - oldreqLast out) * 512)) 0]
    else []
  let second := qemuIovecConcat req.qiov req.qiov.flatten.length
  let qiov := first ++ zeros ++ second
  { out with nbSectors := int32 (qiov.flatten.length / 512 : Nat), qiov := qiov }

/-- The loop over the sorted requests; `out` is the one at `outidx`. -/
def mergeFrom (host : Host) (out : BlockRequest) : List BlockRequest → List BlockRequest
  | [] => [out]
  | req :: reqs =>
    if mergeable host out req then mergeFrom host (merge out req) reqs
    else out :: mergeFrom host req reqs

/-- The requests that remain. -/
def multiwriteMerge (qsort : Qsort) (host : Host) (reqs : List BlockRequest) :
    List BlockRequest :=
  match qsort.sort reqs with
  | [] => []
  | req :: reqs => mergeFrom host req reqs

/-! ## What is written -/

/-- What has been written to each sector, after a request. -/
def perform (written : Int → Option (List Byte)) (r : BlockRequest) : Int → Option (List Byte) :=
  fun x => if r.Covers x then some (r.data x) else written x

/-- Some request writes these data to the sector. -/
def Writes (reqs : List BlockRequest) (x : Int) (bytes : List Byte) : Prop :=
  ∃ r ∈ reqs, r.Covers x ∧ r.data x = bytes

/-- In whatever order the remaining requests are performed, exactly the sectors of the
original requests are written, each with the data of one of them. -/
def Faithful (qsort : Qsort) (host : Host) (reqs : List BlockRequest) : Prop :=
  ∀ order : List BlockRequest, order.Perm (multiwriteMerge qsort host reqs) → ∀ x,
    (order.foldl perform (fun _ => none) x = none → ∀ r ∈ reqs, ¬ r.Covers x) ∧
      ∀ bytes, order.foldl perform (fun _ => none) x = some bytes → Writes reqs x bytes

/-- The vectors that have bytes of the first `n` sectors. -/
def BlockRequest.vectors (r : BlockRequest) (n : Int) : Nat :=
  (qemuIovecConcat r.qiov (512 * n).toNat).length

/-- Some request writes the sector that is not cut before it: the next one starts behind the
sector, or there is no room for its vectors. `last` is the request before the others, `whole` are
its vectors and `before` are those of the requests it is joined to. -/
def UncutFrom (host : Host) :
    (before whole : Nat) → BlockRequest → List BlockRequest → Int → Prop
  | _, _, last, [], x => last.Covers x
  | before, whole, last, req :: reqs, x =>
    if req.sector ≤ last.stop ∧ before + whole + req.qiov.length + 1 ≤ host.iovMax then
      last.Covers x ∧ x < req.sector ∨ UncutFrom host
        (before + last.vectors (req.sector - last.sector)) (req.vectors req.nbSectors) req reqs x
    else last.Covers x ∨ UncutFrom host 0 req.qiov.length req reqs x

def Uncut (host : Host) (x : Int) : List BlockRequest → Prop
  | [] => False
  | req :: reqs => UncutFrom host 0 req.qiov.length req reqs x

/-! ## One merge -/

variable {a x : Int} {order : List BlockRequest} {written : Int → Option (List Byte)}

theorem int32_eq (nonneg : 0 ≤ a) (lt : a < 2 ^ 31) : int32 a = a := by
  unfold int32
  rw [BitVec.toInt_ofInt, Int.bmod_eq_of_le] <;> omega

theorem int64_eq (nonneg : 0 ≤ a) (lt : a < 2 ^ 63) : int64 a = a := by
  unfold int64
  rw [BitVec.toInt_ofInt, Int.bmod_eq_of_le] <;> omega

theorem sizeT_eq (nonneg : 0 ≤ a) (lt : a < 2 ^ 64) : (sizeT a : Int) = a := by
  unfold sizeT
  rw [BitVec.toNat_ofInt]
  omega

section
variable {out req : BlockRequest}

theorem BlockRequest.Valid.oldreqLast (h : out.Valid) : oldreqLast out = out.stop := by
  have := h.sector_nonneg
  have := h.nbSectors_nonneg
  have := h.stop_lt
  exact int64_eq (by omega) this

/-- The second request touches the first or overlaps it. -/
structure Touches (out req : BlockRequest) : Prop where
  starts : out.sector ≤ req.sector
  touches : req.sector ≤ out.stop

section
variable (hout : out.Valid)
include hout

/-- The bytes of the first request up to the second, and those of the second. -/
theorem merge_bytes (touch : Touches out req) (small : out.nbSectors < 2 ^ 31) :
    (merge out req).qiov.flatten =
      out.qiov.flatten.take (512 * (req.sector - out.sector).toNat) ++ req.qiov.flatten := by
  obtain ⟨starts, touches⟩ := touch
  have last := hout.oldreqLast
  unfold BlockRequest.stop at touches last
  have size : sizeT ((req.sector - out.sector) * 512) = 512 * (req.sector - out.sector).toNat := by
    have := sizeT_eq (a := (req.sector - out.sector) * 512) (by omega) (by omega)
    omega
  simp only [merge]
  rw [if_neg (by omega), size]
  simp [qemuIovecConcat_flatten]

theorem merge_size (hreq : req.Valid) (touch : Touches out req) (small : out.nbSectors < 2 ^ 31) :
    ((merge out req).qiov.flatten.length) =
      512 * (req.sector - out.sector + req.nbSectors) := by
  have bytes := merge_bytes hout touch small
  obtain ⟨starts, touches⟩ := touch
  unfold BlockRequest.stop at touches
  have := hout.size
  have := hreq.size
  rw [bytes, length_append, length_take]
  omega

section
variable (hreq : req.Valid) (touch : Touches out req)
  (small : out.nbSectors + req.nbSectors < 2 ^ 31)
include hreq touch small

theorem merge_stop : (merge out req).stop = req.stop := by
  have := hreq.nbSectors_nonneg
  have size := merge_size hout hreq touch (by omega)
  obtain ⟨starts, touches⟩ := touch
  unfold BlockRequest.stop at touches
  have nb : (merge out req).nbSectors = req.sector - out.sector + req.nbSectors := by
    show int32 ((merge out req).qiov.flatten.length / 512) = _
    rw [int32_eq] <;> omega
  unfold BlockRequest.stop
  show out.sector + _ = _
  omega

theorem merge_valid : (merge out req).Valid := by
  have stop := merge_stop hout hreq touch small
  have := hreq.nbSectors_nonneg
  have size := merge_size hout hreq touch (by omega)
  have := hreq.stop_lt
  have sector : (merge out req).sector = out.sector := rfl
  unfold BlockRequest.stop at stop
  refine ⟨hout.sector_nonneg, by omega, by unfold BlockRequest.stop at *; omega, by omega⟩

/-- The merged request has the first one up to the start of the second, and from
there the second. -/
theorem merge_covers (x : Int) :
    (merge out req).Covers x ↔ out.Covers x ∧ x < req.sector ∨ req.Covers x := by
  have stop := merge_stop hout hreq touch small
  have := hreq.nbSectors_nonneg
  obtain ⟨starts, touches⟩ := touch
  have sector : (merge out req).sector = out.sector := rfl
  unfold BlockRequest.Covers
  unfold BlockRequest.stop at *
  omega

end

theorem merge_data (touch : Touches out req)
    (small : out.nbSectors < 2 ^ 31) (hx : out.sector ≤ x) :
    (merge out req).data x = if x < req.sector then out.data x else req.data x := by
  have bytes := merge_bytes hout touch small
  obtain ⟨starts, touches⟩ := touch
  have size := hout.size
  unfold BlockRequest.stop at touches
  have sector : (merge out req).sector = out.sector := rfl
  have length : (out.qiov.flatten.take (512 * (req.sector - out.sector).toNat)).length =
      512 * (req.sector - out.sector).toNat := by
    rw [length_take]
    omega
  unfold BlockRequest.data
  rw [bytes]
  split
  · rw [drop_append_of_le_length (by omega), take_append_of_le_length (by
      rw [length_drop]
      omega), drop_take, take_take]
    congr 1
    omega
  · rw [drop_append, drop_eq_nil_of_le (by omega), nil_append]
    congr 2
    omega

end

end

/-! ## The loop -/

/-- Valid requests in order, with fewer sectors in all than an `int` counts. -/
structure Chain (reqs : List BlockRequest) : Prop where
  valid : ∀ r ∈ reqs, r.Valid
  sorted : reqs.Pairwise fun a b => a.sector ≤ b.sector
  small : (reqs.map (·.nbSectors)).sum < 2 ^ 31

section
variable {host : Host} {out req last : BlockRequest} {reqs : List BlockRequest}

theorem Chain.tail (h : Chain (out :: reqs)) : Chain reqs := by
  refine ⟨fun r hr => h.valid r (.tail _ hr), h.sorted.tail, ?_⟩
  have := (h.valid out mem_cons_self).nbSectors_nonneg
  have small := h.small
  rw [map_cons, sum_cons] at small
  omega

theorem sum_nonneg (valid : ∀ r ∈ reqs, r.Valid) : 0 ≤ (reqs.map (·.nbSectors)).sum := by
  apply List.sum_nonneg
  intro n hn
  obtain ⟨r, hr, rfl⟩ := mem_map.mp hn
  exact (valid r hr).nbSectors_nonneg

/-- The first two requests of a chain, when they touch. -/
theorem Chain.pair (h : Chain (out :: req :: reqs)) (touches : req.sector ≤ out.stop) :
    out.Valid ∧ req.Valid ∧ Touches out req ∧ out.nbSectors + req.nbSectors < 2 ^ 31 := by
  have small := h.small
  have rest := sum_nonneg h.tail.tail.valid
  simp only [map_cons, sum_cons] at small
  refine ⟨h.valid out mem_cons_self, h.tail.valid req mem_cons_self, ⟨?_, touches⟩, by omega⟩
  exact (pairwise_cons.mp h.sorted).1 req mem_cons_self

theorem Chain.merge (h : Chain (out :: req :: reqs)) (touches : req.sector ≤ out.stop) :
    Chain (merge out req :: reqs) := by
  obtain ⟨hout, hreq, touch, small⟩ := h.pair touches
  have stop := merge_stop hout hreq touch small
  refine ⟨forall_mem_cons.mpr ⟨merge_valid hout hreq touch small, h.tail.tail.valid⟩,
    pairwise_cons.mpr ⟨fun r hr => ?_, h.tail.tail.sorted⟩, ?_⟩
  · exact (pairwise_cons.mp h.sorted).1 r (.tail _ hr)
  · have total := h.small
    simp only [map_cons, sum_cons] at total ⊢
    have sector : (Multiwrite.merge out req).sector = out.sector := rfl
    unfold BlockRequest.stop at stop touches
    omega

/-- Without a rule of the driver, requests are merged when they touch and there is
room for their vectors. -/
theorem mergeable_iff (rule : host.mergeRequests = none) (hout : out.Valid) :
    mergeable host out req = true ↔
      req.sector ≤ out.stop ∧ out.qiov.length + req.qiov.length + 1 ≤ host.iovMax := by
  unfold mergeable
  rw [rule, hout.oldreqLast]
  simp

/-- What remains writes to a sector what one of the requests writes there. -/
theorem mergeFrom_writes (rule : host.mergeRequests = none) (h : Chain (out :: reqs))
    {m : BlockRequest} (hm : m ∈ mergeFrom host out reqs) (covers : m.Covers x) :
    Writes (out :: reqs) x (m.data x) := by
  induction reqs generalizing out with
  | nil =>
    obtain rfl := mem_singleton.mp hm
    exact ⟨m, mem_cons_self, covers, rfl⟩
  | cons req reqs ih =>
    unfold mergeFrom at hm
    split at hm
    · rename_i merged
      have touches := ((mergeable_iff rule (h.valid out mem_cons_self)).mp merged).1
      obtain ⟨hout, hreq, touch, small⟩ := h.pair touches
      obtain ⟨r, hr, hc, data⟩ := ih (h.merge touches) hm
      obtain rfl | hr := mem_cons.mp hr
      · -- the merged request has the data of one of its two
        have nonneg := hreq.nbSectors_nonneg
        rw [merge_data hout touch (by omega) hc.1] at data
        have parts := (merge_covers hout hreq touch small x).mp hc
        by_cases before : x < req.sector
        · rw [if_pos before] at data
          refine ⟨out, mem_cons_self, ?_, data⟩
          exact parts.elim (·.1) fun second => absurd second.1 (by omega)
        · rw [if_neg before] at data
          refine ⟨req, .tail _ mem_cons_self, ?_, data⟩
          exact parts.elim (fun first => absurd first.2 before) id
      · exact ⟨r, .tail _ (.tail _ hr), hc, data⟩
    · obtain rfl | hm := mem_cons.mp hm
      · exact ⟨m, mem_cons_self, covers, rfl⟩
      · obtain ⟨r, hr, hc, data⟩ := ih h.tail hm
        exact ⟨r, .tail _ hr, hc, data⟩

/-! ## The vectors of a growing request -/

variable {before whole : Nat}

/-- `out` ends with the request `last`. -/
structure Growing (out last : BlockRequest) (before whole : Nat) : Prop where
  starts : out.sector ≤ last.sector
  stop : out.stop = last.stop
  valid : last.Valid
  vectors : ∃ front rest : Qiov, out.qiov = front ++ rest ∧ front.length = before ∧
    rest.length = whole ∧ (∀ iov ∈ front, iov ≠ []) ∧
    (front.flatten.length : Int) = 512 * (last.sector - out.sector) ∧
    ∀ n, qemuIovecConcat rest n = qemuIovecConcat last.qiov n

theorem Growing.start (valid : req.Valid) : Growing req req 0 req.qiov.length :=
  ⟨Int.le_refl _, rfl, valid, [], req.qiov, by simp⟩

theorem Growing.merge (h : Growing out last before whole) (chain : Chain (out :: req :: reqs))
    (after : last.sector ≤ req.sector) (touches : req.sector ≤ out.stop) :
    Growing (merge out req) req (before + last.vectors (req.sector - last.sector))
      (req.vectors req.nbSectors) := by
  obtain ⟨hout, hreq, touch, small⟩ := chain.pair touches
  obtain ⟨starts, stop, valid, front, rest, split, frontLength, -, full, bytes, same⟩ := h
  have nonneg := hreq.nbSectors_nonneg
  have last_size := valid.size
  have req_size := hreq.size
  unfold BlockRequest.stop at stop touches
  have cut : sizeT ((req.sector - out.sector) * 512) =
      front.flatten.length + (512 * (req.sector - last.sector)).toNat := by
    have := sizeT_eq (a := (req.sector - out.sector) * 512) (by omega) (by omega)
    omega
  have qiov : (Multiwrite.merge out req).qiov =
      (front ++ qemuIovecConcat last.qiov (512 * (req.sector - last.sector)).toNat) ++
        qemuIovecConcat req.qiov req.qiov.flatten.length := by
    have last := hout.oldreqLast
    unfold BlockRequest.stop at last
    simp only [Multiwrite.merge]
    rw [if_neg (by omega), append_nil, cut, split, qemuIovecConcat_append full, same]
  refine ⟨touch.starts, merge_stop hout hreq touch small, hreq, _, _, qiov, ?_, ?_, ?_, ?_, ?_⟩
  · rw [length_append, frontLength, BlockRequest.vectors]
  · unfold BlockRequest.vectors
    congr 2
    omega
  · exact forall_mem_append.mpr ⟨full, qemuIovecCopy_ne_nil (Nat.zero_le _)⟩
  · show _ = 512 * (req.sector - out.sector)
    rw [flatten_append, length_append, qemuIovecConcat_flatten, length_take]
    omega
  · exact qemuIovecConcat_whole req.qiov

/-- The sectors that what remains covers. -/
theorem mergeFrom_covers_iff (rule : host.mergeRequests = none) (h : Chain (out :: reqs))
    (grows : Growing out last before whole) (after : ∀ r ∈ reqs, last.sector ≤ r.sector) :
    (∃ m ∈ mergeFrom host out reqs, m.Covers x) ↔
      out.Covers x ∧ x < last.sector ∨ UncutFrom host before whole last reqs x := by
  have starts := grows.starts
  have stop := grows.stop
  have parts : out.Covers x ↔ out.Covers x ∧ x < last.sector ∨ last.Covers x := by
    unfold BlockRequest.Covers
    omega
  induction reqs generalizing out last before whole with
  | nil => simpa [mergeFrom, UncutFrom] using parts
  | cons req reqs ih =>
    have behind := after req mem_cons_self
    have sorted := (pairwise_cons.mp h.tail.sorted).1
    have room : mergeable host out req = true ↔
        req.sector ≤ last.stop ∧ before + whole + req.qiov.length + 1 ≤ host.iovMax := by
      obtain ⟨front, rest, split, frontLength, restLength, -⟩ := grows.vectors
      rw [mergeable_iff rule (h.valid out mem_cons_self), split, length_append, frontLength,
        restLength, stop]
    unfold mergeFrom UncutFrom
    by_cases merged : mergeable host out req = true
    · have touches := (room.mp merged).1
      rw [← stop] at touches
      obtain ⟨hout, hreq, touch, small⟩ := h.pair touches
      have covers := merge_covers hout hreq touch small x
      have grown := grows.merge h behind touches
      have uncut : (merge out req).Covers x ↔
          (merge out req).Covers x ∧ x < req.sector ∨ req.Covers x := by
        rw [covers]
        unfold BlockRequest.Covers
        omega
      rw [if_pos merged, if_pos (room.mp merged), ← or_assoc]
      refine (ih (h.merge touches) grown sorted grown.starts grown.stop uncut).trans ?_
      refine or_congr_left ?_
      rw [covers]
      unfold BlockRequest.Covers at *
      omega
    · have alone : req.Covers x ↔ req.Covers x ∧ x < req.sector ∨ req.Covers x := by tauto
      have grown := Growing.start (h.tail.valid req mem_cons_self)
      have rest := ih h.tail grown sorted grown.starts grown.stop alone
      have none : ¬ (req.Covers x ∧ x < req.sector) := fun h => absurd h.1.1 (by omega)
      rw [if_neg merged, if_neg (fun fits => merged (room.mpr fits)), exists_mem_cons_iff,
        ← or_assoc, ← parts]
      exact or_congr_right (rest.trans (or_iff_right none))

end

/-! ## Performing the requests -/

theorem perform_none :
    order.foldl perform written x = none ↔ written x = none ∧ ∀ r ∈ order, ¬ r.Covers x := by
  induction order generalizing written with
  | nil => simp
  | cons r order ih =>
    rw [foldl_cons, ih, perform]
    by_cases covers : r.Covers x <;> simp [covers]

theorem perform_some {bytes : List Byte} (h : order.foldl perform written x = some bytes) :
    Writes order x bytes ∨ written x = some bytes := by
  induction order generalizing written with
  | nil => exact .inr h
  | cons r order ih =>
    obtain ⟨s, hs, hc, data⟩ | before := ih h
    · exact .inl ⟨s, .tail _ hs, hc, data⟩
    · unfold perform at before
      split at before
      · rename_i covers
        exact .inl ⟨r, mem_cons_self, covers, Option.some.inj before⟩
      · exact .inr before

/-- The requests in the order in which they are merged. -/
theorem chain_sort (qsort : Qsort) {reqs : List BlockRequest} (valid : ∀ r ∈ reqs, r.Valid)
    (small : (reqs.map (·.nbSectors)).sum < 2 ^ 31) : Chain (qsort.sort reqs) := by
  refine ⟨fun r hr => valid r ((qsort.perm reqs).mem_iff.mp hr),
    (qsort.sorted reqs).imp fun {a b} le => ?_, ?_⟩
  · unfold multiwriteReqCompare at le
    omega
  · rw [((qsort.perm reqs).map _).sum_eq]
    exact small

section
variable (qsort : Qsort) {host : Host} (rule : host.mergeRequests = none)
  {reqs : List BlockRequest} (chain : Chain (qsort.sort reqs))
include rule chain

theorem multiwriteMerge_covers_iff (x : Int) :
    (∃ m ∈ multiwriteMerge qsort host reqs, m.Covers x) ↔ Uncut host x (qsort.sort reqs) := by
  unfold multiwriteMerge
  cases sorted : qsort.sort reqs with
  | nil => simp [Uncut]
  | cons out rest =>
    rw [sorted] at chain
    have grows := Growing.start (chain.valid out mem_cons_self)
    rw [mergeFrom_covers_iff rule chain grows (pairwise_cons.mp chain.sorted).1]
    exact or_iff_right fun h => absurd h.1.1 (by omega)

theorem multiwriteMerge_writes {m : BlockRequest} {x : Int}
    (hm : m ∈ multiwriteMerge qsort host reqs) (covers : m.Covers x) :
    Writes reqs x (m.data x) := by
  have mem : ∀ r, r ∈ qsort.sort reqs ↔ r ∈ reqs := fun r => (qsort.perm reqs).mem_iff
  unfold multiwriteMerge at hm
  cases sorted : qsort.sort reqs with
  | nil =>
    rw [sorted] at hm
    cases hm
  | cons out rest =>
    rw [sorted] at hm chain mem
    obtain ⟨r, hr, covered, data⟩ := mergeFrom_writes rule chain hm covers
    exact ⟨r, (mem r).mp hr, covered, data⟩

end

/-- Requests with equal sectors stay in their order. -/
def insertionSort : Qsort where
  sort reqs := reqs.insertionSort fun a b => a.sector ≤ b.sector
  perm reqs := perm_insertionSort _ reqs
  sorted reqs := by
    have : IsTrans BlockRequest fun a b => a.sector ≤ b.sector := ⟨fun _ _ _ => Int.le_trans⟩
    have : Std.Total fun a b : BlockRequest => a.sector ≤ b.sector :=
      ⟨fun a b => Int.le_total a.sector b.sector⟩
    refine (pairwise_insertionSort _ reqs).imp fun {a b} le => ?_
    unfold multiwriteReqCompare
    split
    · omega
    · split <;> omega

def plainHost : Host := ⟨none, 1024⟩

theorem plainHost_rule : plainHost.mergeRequests = none := rfl

/-- A request whose sectors all have one byte. -/
def filled (sector : Nat) (nbSectors : Nat) (byte : Byte) : BlockRequest :=
  ⟨sector, nbSectors, [List.replicate (512 * nbSectors) byte]⟩

theorem filled_valid {sector nbSectors : Nat} (h : sector + nbSectors < 2 ^ 63) (byte : Byte) :
    (filled sector nbSectors byte).Valid := by
  constructor
  · exact Int.natCast_nonneg _
  · exact Int.natCast_nonneg _
  · show (sector : Int) + nbSectors < 2 ^ 63
    omega
  · simp [filled]

theorem pair_valid {a b : BlockRequest} (ha : a.Valid) (hb : b.Valid) : ∀ r ∈ [a, b], r.Valid := by
  simp [ha, hb]

end QemuStm32.Multiwrite
