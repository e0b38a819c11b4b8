import QemuStm32.Virtio.Pop

/-!
# The available heads, in order

The guest writes heads into the available ring and counts them modulo 65536; the device
counts what it has fetched in the same way. For a queue whose size is a power of two the
positions in the ring go on across the wrap of the index.

`virtqueue_pop_correct`: `virtqueue_pop` is safe for any memory, and for a well-formed ring
it returns the heads in the order in which they were made available.
-/

namespace QemuStm32.Virtio

open Runs Words BitVec List

/-! ## Addresses in the ring -/

section
variable {w a n : Nat}

theorem phys_phys_add (w a x : Nat) : phys w (phys w a + x) = phys w (a + x) := Nat.mod_add_mod ..

/-- Half words at different offsets do not overlap, even if the addresses wrap. -/
theorem phys_apart (wide : 32 ≤ w) (a : Nat) {x y : Nat} (apart : x + 2 ≤ y ∨ y + 2 ≤ x)
    (hx : x < 2 ^ 16) (hy : y < 2 ^ 16) :
    phys w (a + x) + 2 ≤ phys w (a + y) ∨ phys w (a + y) + 2 ≤ phys w (a + x) := by
  have room : 2 ^ 32 ≤ 2 ^ w := Nat.pow_le_pow_right (by decide) wide
  -- seen from the remainder of `a`, each offset wraps at most once
  have wrap : ∀ z, z < 2 ^ 16 → phys w (a + z) = a % 2 ^ w + z ∨
      phys w (a + z) + 2 ^ w = a % 2 ^ w + z := by
    intro z hz
    rw [phys, ← Nat.mod_add_mod]
    by_cases fits : a % 2 ^ w + z < 2 ^ w
    · exact .inl (Nat.mod_eq_of_lt fits)
    · rw [Nat.mod_eq_sub_mod (by omega), Nat.mod_eq_of_lt (by omega)]
      omega
  have bound : ∀ z, phys w (a + z) < 2 ^ w := fun z => Nat.mod_lt _ (by omega)
  have := wrap x hx
  have := wrap y hy
  omega

/-- The used ring begins behind the available ring, in the next page at the latest. -/
theorem used_offset (w pa n : Nat) : ∃ off, 4 + 2 * n ≤ off ∧ off ≤ 4 + 2 * n + 4095 ∧
    ∀ x, phys w ((virtqueueInit w pa n).used + x) =
      phys w ((virtqueueInit w pa n).avail + (off + x)) := by
  unfold virtqueueInit
  dsimp only
  generalize phys w (pa + n * 16) = avail
  generalize total : phys w (avail + (4 + 2 * n)) + 4095 = t
  refine ⟨4 + 2 * n + 4095 - phys w t % 4096, by omega, by omega, fun x => ?_⟩
  have back : phys w (phys w t / 4096 * 4096 + x + phys w t % 4096) =
      phys w (avail + (4 + 2 * n + 4095 - phys w t % 4096 + x) + phys w t % 4096) := by
    rw [show phys w t / 4096 * 4096 + x + phys w t % 4096 = phys w t + x by omega,
      show avail + (4 + 2 * n + 4095 - phys w t % 4096 + x) + phys w t % 4096 =
        avail + (4 + 2 * n) + (4095 + x) by omega, phys_phys_add, ← total, Nat.add_assoc,
      phys_phys_add]
  exact Nat.ModEq.add_right_cancel' _ back

end

/-! ## The ring and what the guest makes available -/

/-- A device, the state of the mapping, the heads made available and the elements fetched. -/
structure Queued (σ : Type) where
  d : Device
  s : σ
  offered : List Nat
  popped : List VirtQueueElement

inductive QueueEvent
  /-- The guest makes a head available. -/
  | offer (head : Nat)
  | pop
  /-- What the guest and the device do otherwise. -/
  | elsewhere (mem : Memory) (inuse : Int) (notification : Bool)

/-- The guest's stores: the entry of the ring, then the index. -/
def offerHead (w : Nat) (mem : Memory) (vring : VRing) (head : Nat) : Memory :=
  let idx := vringAvailIdx w mem vring
  let slot := phys w (vring.avail + (4 + 2 * (idx.toNat % vring.num)))
  storeHalf (storeHalf mem slot (BitVec.ofNat 16 head)) (phys w (vring.avail + 2)) (idx + 1)

section
variable {σ : Type} (w : Nat) (map : Map σ) (rounds : Nat)

def queueStep (q : Queued σ) : QueueEvent → Except Stop (Queued σ)
  | .offer head => .ok { q with
      d := { q.d with mem := offerHead w q.d.mem q.d.vq.vring head }
      offered := q.offered ++ [head] }
  | .pop => virtqueuePop w map rounds q.d q.s >>= fun (elem, d, s) =>
      .ok { q with d := d, s := s, popped := q.popped ++ elem.toList }
  | .elsewhere mem inuse notification => .ok { q with d := { q.d with
      mem := mem
      vq := { q.d.vq with inuse := inuse, notification := notification } } }

/-- The chain of a head: its own descriptors, or those of the table it names. -/
def HeadChain (mem : Memory) (vring : VRing) (head table : Nat) (chain : List Nat) : Prop :=
  if vringDescFlags w mem vring.desc head &&& vringDescFIndirect = 0 then
    table = vring.desc ∧ chain.head? = some head ∧ Chain w mem table vring.num chain ∧
      chain.length ≤ vring.num
  else
    16 ∣ vringDescLen w mem vring.desc head ∧ table = phys w (vringDescAddr w mem vring.desc head) ∧
      chain.head? = some 0 ∧ Chain w mem table (vringDescLen w mem vring.desc head / 16) chain ∧
      chain.length ≤ vringDescLen w mem vring.desc head / 16

instance (mem : Memory) (vring : VRing) (head table : Nat) (chain : List Nat) :
    Decidable (HeadChain w mem vring head table chain) := by
  unfold HeadChain
  infer_instance

/-- The chain of a head fits into an element, and its buffers can be mapped. -/
structure Fetchable (mem : Memory) (vring : VRing) (head table : Nat) (chain : List Nat) :
    Prop where
  chained : HeadChain w mem vring head table chain
  inRoom : (inBuffers w mem table chain).length ≤ virtqueueMaxSize
  outRoom : (outBuffers w mem table chain).length ≤ virtqueueMaxSize
  inMappable : Mappable w map true (inBuffers w mem table chain)
  outMappable : Mappable w map false (outBuffers w mem table chain)

/-- A guest that keeps to the rules: at most as many heads are available as the queue has
descriptors, only `offer` writes the available ring, and every head has a chain when it is
fetched. -/
def WellFormed (q : Queued σ) : QueueEvent → Prop
  | .offer head => head < q.d.vq.vring.num ∧ q.offered.length < q.popped.length + q.d.vq.vring.num
  | .pop => ∀ head, q.offered[q.popped.length]? = some head →
      ∃ table chain, Fetchable w map (availEventSet w q.d) q.d.vq.vring head table chain
  | .elsewhere mem _ _ =>
      vringAvailIdx w mem q.d.vq.vring = vringAvailIdx w q.d.mem q.d.vq.vring ∧
      ∀ i < q.d.vq.vring.num,
        vringAvailRing w mem q.d.vq.vring i = vringAvailRing w q.d.mem q.d.vq.vring i

/-- `virtqueue_pop` fetches the next head that was made available, with the buffers of its
chain, or nothing if there is none. -/
def FetchesNext (q : Queued σ) : QueueEvent → Prop
  | .pop =>
    match q.offered[q.popped.length]? with
    | none => queueStep w map rounds q .pop = .ok q
    | some head => ∃ q' elem table chain, queueStep w map rounds q .pop = .ok q' ∧
        q'.popped = q.popped ++ [elem] ∧ elem.index = head ∧
        HeadChain w (availEventSet w q.d) q.d.vq.vring head table chain ∧
        elem.inSg.map Sg.range = (inBuffers w (availEventSet w q.d) table chain).map Sg.range ∧
        elem.outSg.map Sg.range = (outBuffers w (availEventSet w q.d) table chain).map Sg.range
  | _ => True

/-- The position of the `k`-th head in the ring. -/
def slotOf (start : BitVec 16) (n k : Nat) : Nat := (start + BitVec.ofNat 16 k).toNat % n

/-- The heads that are not fetched stand in the ring, one after the other. -/
structure InRing (pa : Nat) (start : BitVec 16) (n : Nat) (q : Queued σ) : Prop where
  ring : q.d.vq.vring = virtqueueInit w pa n
  fetched : q.popped.length ≤ q.offered.length
  room : q.offered.length ≤ q.popped.length + n
  seen : q.d.vq.lastAvailIdx = start + BitVec.ofNat 16 q.popped.length
  idx : vringAvailIdx w q.d.mem q.d.vq.vring = start + BitVec.ofNat 16 q.offered.length
  entries : ∀ k head, q.popped.length ≤ k → q.offered[k]? = some head → head < n ∧
    vringAvailRing w q.d.mem q.d.vq.vring (slotOf start n k) = BitVec.ofNat 16 head
  heads : q.popped.map VirtQueueElement.index = q.offered.take q.popped.length

end

section
variable {σ : Type} {w pa n : Nat} {start : BitVec 16} {map : Map σ} {rounds : Nat}
  {q q' : Queued σ}

/-- Fewer than `n` heads have different positions, because the range of the index is a
multiple of `n`. -/
theorem slotOf_ne (power : n ∣ 2 ^ 16) {j k : Nat} (lt : j < k) (near : k < j + n) :
    slotOf start n j ≠ slotOf start n k := by
  unfold slotOf
  rw [toNat_add, toNat_add, toNat_ofNat, toNat_ofNat, Nat.add_mod_mod,
    Nat.add_mod_mod, Nat.mod_mod_of_dvd _ power, Nat.mod_mod_of_dvd _ power]
  intro same
  have same : j % n = k % n := Nat.ModEq.add_left_cancel' _ same
  have step : (k - j) % n = 0 := Nat.sub_mod_eq_zero_of_mod_eq same.symm
  rw [Nat.mod_eq_of_lt (by omega)] at step
  omega

variable {vring : VRing} {head table : Nat} {mem : Memory} {chain : List Nat}

/-- A store in the available ring changes that entry only. -/
theorem offerHead_spec (wide : 32 ≤ w) (mem : Memory) (small : vring.num ≤ 1024) (head : Nat)
    (pos : 0 < vring.num) : let slot := (vringAvailIdx w mem vring).toNat % vring.num
    vringAvailIdx w (offerHead w mem vring head) vring = vringAvailIdx w mem vring + 1 ∧
      vringAvailRing w (offerHead w mem vring head) vring slot = BitVec.ofNat 16 head ∧
      ∀ i < vring.num, i ≠ slot →
        vringAvailRing w (offerHead w mem vring head) vring i = vringAvailRing w mem vring i := by
  intro slot
  have bound : slot < vring.num := Nat.mod_lt _ pos
  have idxApart : ∀ i < vring.num, phys w (vring.avail + (4 + 2 * i)) + 2 ≤
      phys w (vring.avail + 2) ∨ phys w (vring.avail + 2) + 2 ≤
      phys w (vring.avail + (4 + 2 * i)) :=
    fun i hi => phys_apart wide _ (by omega) (by omega) (by omega)
  refine ⟨loadHalf_storeHalf_same .., ?_, fun i hi ne => ?_⟩
  · exact (loadHalf_storeHalf_other _ _ (idxApart slot bound)).trans (loadHalf_storeHalf_same ..)
  · refine (loadHalf_storeHalf_other _ _ (idxApart i hi)).trans (loadHalf_storeHalf_other _ _ ?_)
    exact phys_apart wide _ (by omega) (by omega) (by omega)

theorem InRing.offer (h : InRing w pa start n q) (wide : 32 ≤ w) (small : n ≤ 1024)
    (power : n ∣ 2 ^ 16) (bound : head < n) (free : q.offered.length < q.popped.length + n) :
    InRing w pa start n { q with
      d := { q.d with mem := offerHead w q.d.mem q.d.vq.vring head }
      offered := q.offered ++ [head] } := by
  have num : q.d.vq.vring.num = n := by rw [h.ring]; rfl
  have pos : 0 < n := Nat.zero_lt_of_lt bound
  obtain ⟨idx, entry, others⟩ := offerHead_spec wide q.d.mem (num ▸ small) head (num ▸ pos)
  have here : (vringAvailIdx w q.d.mem q.d.vq.vring).toNat % q.d.vq.vring.num =
      slotOf start n q.offered.length := by
    rw [h.idx, num]
    rfl
  rw [here] at entry others
  refine ⟨h.ring, ?_, ?_, h.seen, ?_, fun k head' low offered => ?_, ?_⟩
  · simpa using Nat.le_succ_of_le h.fetched
  · simpa using Nat.succ_le_of_lt free
  · rw [idx, h.idx, length_append, ofNat_add, ← BitVec.add_assoc]
    rfl
  · have low : q.popped.length ≤ k := low
    obtain old | new := Nat.lt_or_ge k q.offered.length
    · rw [getElem?_append_left old] at offered
      obtain ⟨small, ring⟩ := h.entries k head' low offered
      refine ⟨small, (others _ ?_ ?_).trans ring⟩
      · rw [num]
        exact Nat.mod_lt _ pos
      · exact slotOf_ne power old (by omega)
    · rw [getElem?_append_right new, getElem?_singleton] at offered
      obtain ⟨last, rfl⟩ : k - q.offered.length = 0 ∧ head = head' := by
        split at offered
        · exact ⟨‹_›, Option.some.inj offered⟩
        · cases offered
      obtain rfl : k = q.offered.length := by omega
      exact ⟨bound, entry⟩
  · rw [take_append_of_le_length h.fetched]
    exact h.heads

theorem InRing.elsewhere (h : InRing w pa start n q) {mem : Memory} {inuse : Int}
    {notification : Bool}
    (idx : vringAvailIdx w mem q.d.vq.vring = vringAvailIdx w q.d.mem q.d.vq.vring)
    (entries : ∀ i < q.d.vq.vring.num,
      vringAvailRing w mem q.d.vq.vring i = vringAvailRing w q.d.mem q.d.vq.vring i) :
    InRing w pa start n { q with d := { q.d with
      mem := mem
      vq := { q.d.vq with inuse := inuse, notification := notification } } } := by
  have num : q.d.vq.vring.num = n := by rw [h.ring]; rfl
  refine ⟨h.ring, h.fetched, h.room, h.seen, idx.trans h.idx, fun k head low offered => ?_, h.heads⟩
  obtain ⟨small, ring⟩ := h.entries k head low offered
  refine ⟨small, (entries _ ?_).trans ring⟩
  rw [num]
  exact Nat.mod_lt _ (Nat.zero_lt_of_lt small)

/-- The word for the available event lies outside the available ring. -/
theorem availEventSet_spec (wide : 32 ≤ w) {d : Device} (ring : d.vq.vring = virtqueueInit w pa n)
    (small : n ≤ 1024) :
    vringAvailIdx w (availEventSet w d) d.vq.vring = vringAvailIdx w d.mem d.vq.vring ∧
      ∀ i < n, vringAvailRing w (availEventSet w d) d.vq.vring i =
        vringAvailRing w d.mem d.vq.vring i := by
  unfold availEventSet vringAvailEvent
  split
  · split
    · exact ⟨rfl, fun _ _ => rfl⟩
    · obtain ⟨off, low, high, used⟩ := used_offset w pa n
      have num : d.vq.vring.num = n := by rw [ring]; rfl
      rw [num, ring, used]
      refine ⟨loadHalf_storeHalf_other _ _ ?_, fun i hi => loadHalf_storeHalf_other _ _ ?_⟩ <;>
        exact phys_apart wide _ (by omega) (by omega) (by omega)
  · exact ⟨rfl, fun _ _ => rfl⟩

/-- The loop of `virtqueue_pop` collects the chain of a head. -/
theorem Fetchable.collected (h : Fetchable w map mem vring head table chain)
    (enough : 2049 ≤ rounds) :
    (descTable w mem vring head >>= fun (descPa, max, i) =>
      collect w mem descPa max rounds i ⟨head, [], []⟩) =
      .ok ⟨head, inBuffers w mem table chain, outBuffers w mem table chain⟩ := by
  have total := buffers_length w mem table chain
  have inRoom : (inBuffers w mem table chain).length ≤ 1024 := h.inRoom
  have outRoom : (outBuffers w mem table chain).length ≤ 1024 := h.outRoom
  -- both kinds of tables lead to the same loop
  have loop : ∀ {max i : Nat}, chain.head? = some i → Chain w mem table max chain →
      chain.length ≤ max → collect w mem table max rounds i ⟨head, [], []⟩ =
        .ok ⟨head, inBuffers w mem table chain, outBuffers w mem table chain⟩ := by
    intro max i first chained short
    cases chain with
    | nil => cases first
    | cons j l =>
      cases first
      refine collect_chain chained ?_ h.inRoom h.outRoom ?_
      · simpa [VirtQueueElement.size] using short
      · simp only [length_cons] at total
        omega
  have chained := h.chained
  unfold HeadChain at chained
  unfold descTable
  split at chained
  · rename_i direct
    obtain ⟨rfl, first, chained, short⟩ := chained
    rw [if_neg (not_not_intro direct)]
    exact loop first chained short
  · rename_i indirect
    obtain ⟨whole, rfl, first, chained, short⟩ := chained
    rw [if_pos indirect, if_neg (not_not_intro (Nat.mod_eq_zero_of_dvd whole))]
    exact loop first chained short

section
variable (h : InRing w pa start n q)
include h

theorem InRing.numHeads (small : n ≤ 1024) :
    virtqueueNumHeads w q.d q.d.vq.lastAvailIdx = .ok (q.offered.length - q.popped.length) := by
  have num : q.d.vq.vring.num = n := by rw [h.ring]; rfl
  have room := h.room
  unfold virtqueueNumHeads
  rw [h.idx, h.seen, index_sub start h.fetched, toNat_ofNat, Nat.mod_eq_of_lt (by omega)]
  rw [if_neg (by omega)]

theorem InRing.getHead (small : n ≤ 1024) (next : q.offered[q.popped.length]? = some head) :
    virtqueueGetHead w q.d q.d.vq.lastAvailIdx = .ok head := by
  have num : q.d.vq.vring.num = n := by rw [h.ring]; rfl
  obtain ⟨bound, entry⟩ := h.entries _ head le_rfl next
  have value : (BitVec.ofNat 16 head).toNat = head := by
    rw [toNat_ofNat, Nat.mod_eq_of_lt (by omega)]
  unfold virtqueueGetHead
  rw [if_neg (by omega), h.seen, num]
  rw [slotOf] at entry
  rw [entry, value, if_neg (by omega)]

/-- `virtqueue_pop` on a well-formed ring. -/
theorem InRing.pop (wide : 32 ≤ w) (small : n ≤ 1024)
    (enough : 2049 ≤ rounds) (next : q.offered[q.popped.length]? = some head)
    (fetchable : Fetchable w map (availEventSet w q.d) q.d.vq.vring head table chain) :
    ∃ q' elem, queueStep w map rounds q .pop = .ok q' ∧ InRing w pa start n q' ∧
      q'.popped = q.popped ++ [elem] ∧ elem.index = head ∧
      elem.inSg.map Sg.range = (inBuffers w (availEventSet w q.d) table chain).map Sg.range ∧
      elem.outSg.map Sg.range = (outBuffers w (availEventSet w q.d) table chain).map Sg.range := by
  obtain ⟨inSg, s₁, inMapped, inSame, -⟩ := virtqueueMapSg_mappable fetchable.inMappable q.s
  obtain ⟨outSg, s₂, outMapped, outSame, -⟩ := virtqueueMapSg_mappable fetchable.outMappable s₁
  have more : q.popped.length < q.offered.length := (List.getElem?_eq_some_iff.mp next).1
  obtain ⟨⟨descPa, max, i⟩, tableOk, collected⟩ := bind_ok_iff.mp (fetchable.collected enough)
  have popped : virtqueuePop w map rounds q.d q.s = .ok (some ⟨head, inSg, outSg⟩, { q.d with
      mem := availEventSet w q.d
      vq := { q.d.vq with
        lastAvailIdx := q.d.vq.lastAvailIdx + 1
        inuse := q.d.vq.inuse + 1 } }, s₂) := by
    unfold virtqueuePop
    rw [h.numHeads small, ok_bind, if_neg (by omega), h.getHead small next, ok_bind]
    dsimp only
    rw [tableOk, ok_bind]
    dsimp only at collected ⊢
    rw [collected, ok_bind]
    rw [inMapped, ok_bind]
    rw [outMapped, ok_bind]
  have stepped : queueStep w map rounds q .pop = .ok { q with
      d := { q.d with
        mem := availEventSet w q.d
        vq := { q.d.vq with
          lastAvailIdx := q.d.vq.lastAvailIdx + 1
          inuse := q.d.vq.inuse + 1 } }
      s := s₂
      popped := q.popped ++ [⟨head, inSg, outSg⟩] } := by
    rw [queueStep, popped, ok_bind]
    rfl
  obtain ⟨idx, entries⟩ := availEventSet_spec wide h.ring small
  refine ⟨_, ⟨head, inSg, outSg⟩, stepped, ⟨h.ring, ?_, ?_, ?_, idx.trans h.idx,
    fun k head' low offered => ?_, ?_⟩, rfl, rfl, inSame, outSame⟩
  · simpa using Nat.succ_le_of_lt more
  · have room := h.room
    simp only [length_append, length_singleton]
    omega
  · simp only [length_append, length_singleton]
    rw [h.seen, ofNat_add, ← BitVec.add_assoc]
    rfl
  · simp only [length_append, length_singleton] at low
    obtain ⟨bound, entry⟩ := h.entries k head' (by omega) offered
    exact ⟨bound, (entries _ (Nat.mod_lt _ (Nat.zero_lt_of_lt bound))).trans entry⟩
  · simp only [map_append, map_cons, map_nil, length_append, length_singleton]
    rw [take_add_one, next, h.heads]
    rfl

theorem InRing.pop_none (map : Map σ) (rounds : Nat) (small : n ≤ 1024)
    (none : q.offered[q.popped.length]? = none) : queueStep w map rounds q .pop = .ok q := by
  have all : q.offered.length ≤ q.popped.length := getElem?_eq_none_iff.mp none
  rw [queueStep, virtqueuePop, h.numHeads small, ok_bind, if_pos (by omega), ok_bind]
  simp

theorem InRing.step (wide : 32 ≤ w) (small : n ≤ 1024)
    (power : n ∣ 2 ^ 16) (enough : 2049 ≤ rounds) {e : QueueEvent} (ok : WellFormed w map q e) :
    FetchesNext w map rounds q e ∧
      ∃ q', queueStep w map rounds q e = .ok q' ∧ InRing w pa start n q' := by
  have num : q.d.vq.vring.num = n := by rw [h.ring]; rfl
  cases e with
  | offer head =>
    obtain ⟨bound, free⟩ := ok
    rw [num] at bound free
    exact ⟨trivial, _, rfl, h.offer wide small power bound free⟩
  | elsewhere mem inuse notification => exact ⟨trivial, _, rfl, h.elsewhere ok.1 ok.2⟩
  | pop =>
    unfold FetchesNext
    cases next : q.offered[q.popped.length]? with
    | none =>
      have same := h.pop_none map rounds small next
      exact ⟨same, q, same, h⟩
    | some head =>
      obtain ⟨table, chain, fetchable⟩ := ok head next
      obtain ⟨q', elem, stepped, after, popped, index, inSame, outSame⟩ :=
        h.pop wide small enough next fetchable
      exact ⟨⟨q', elem, table, chain, stepped, popped, index, fetchable.chained, inSame, outSame⟩,
        q', stepped, after⟩

end

theorem InRing.run (wide : 32 ≤ w) (small : n ≤ 1024) (power : n ∣ 2 ^ 16) (enough : 2049 ≤ rounds)
    (es : List QueueEvent) (start' : InRing w pa start n q)
    (ok : StepsMeet (queueStep w map rounds) (WellFormed w map) q es) :
    Always (queueStep w map rounds)
        (fun q => q.popped.map VirtQueueElement.index <+: q.offered) q es ∧
      StepsMeet (queueStep w map rounds) (FetchesNext w map rounds) q es := by
  have ordered : ∀ {q : Queued σ}, InRing w pa start n q →
      q.popped.map VirtQueueElement.index <+: q.offered :=
    fun h => h.heads ▸ take_prefix ..
  induction es generalizing q with
  | nil => exact ⟨ordered start', trivial⟩
  | cons e es ih =>
    obtain ⟨fetches, q', stepped, after⟩ := start'.step wide small power enough ok.1
    obtain ⟨always, meets⟩ := ih after (ok.2 q' stepped)
    refine ⟨⟨ordered start', fun t ht => ?_⟩, .cons stepped fetches meets⟩
    obtain rfl : q' = t := Except.ok.inj (stepped.symm.trans ht)
    exact always

/-- Whatever the memory holds, `virtqueue_pop` exits or ends, after at most 1024 descriptors
of each kind. On a well-formed ring the fetched heads are those made available, in order. -/
theorem virtqueue_pop_correct (w : Nat) (wide : 32 ≤ w) {σ : Type} (map : Map σ) :
    (∀ (d : Device) (s : σ), ∃ r, Safe r (fun r => ∀ elem, r.1 = some elem → elem.Fits) ∧
      ∀ rounds ≥ 2049, virtqueuePop w map rounds d s = r) ∧
    ∀ (pa k : Nat) (d : Device) (s : σ) (rounds : Nat) (es : List QueueEvent),
      2 ^ k ≤ virtqueueMaxSize → d.vq.vring = virtqueueInit w pa (2 ^ k) →
      vringAvailIdx w d.mem d.vq.vring = d.vq.lastAvailIdx → 2049 ≤ rounds →
      StepsMeet (queueStep w map rounds) (WellFormed w map) ⟨d, s, [], []⟩ es →
      Always (queueStep w map rounds)
          (fun q => q.popped.map VirtQueueElement.index <+: q.offered) ⟨d, s, [], []⟩ es ∧
        StepsMeet (queueStep w map rounds) (FetchesNext w map rounds) ⟨d, s, [], []⟩ es := by
  refine ⟨fun d s => ?_, fun pa k d s rounds es small ring idx enough ok => ?_⟩
  · exact ⟨virtqueuePop w map 2049 d s, virtqueuePop_safe w map d s le_rfl,
      fun rounds enough => virtqueuePop_rounds w map d s enough⟩
  have bound : k ≤ 16 := by
    by_contra long
    have := Nat.pow_le_pow_right (show 0 < 2 by decide) (show 17 ≤ k by omega)
    have : 2 ^ k ≤ 1024 := small
    omega
  have start : InRing w pa d.vq.lastAvailIdx (2 ^ k) (⟨d, s, [], []⟩) := by
    refine ⟨ring, Nat.le_refl 0, Nat.zero_le _, ?_, ?_, ?_, rfl⟩
    · simp
    · simpa using idx
    · intro k head _ offered
      cases offered
  exact InRing.run wide small (pow_dvd_pow 2 bound) enough es start ok

end

/-- All of the memory is RAM. -/
def mapRam : Map Unit := fun s addr len _ => ((some addr, len), s)

theorem mappable_mapRam (isWrite : Bool) {sgs : List Sg} (short : ∀ sg ∈ sgs, sg.iovLen < 2 ^ 32) :
    Mappable 32 mapRam isWrite sgs := by
  intro sg mem s
  refine ⟨sg.addr, s, ?_⟩
  rw [mapRam, phys, Nat.mod_eq_of_lt (short sg mem)]

/-- A queue of two descriptors at address 0, both indices 65535: descriptor 0 is readable and
goes on to descriptor 1, which is writable. -/
def twoDescriptors : Device where
  mem a :=
    match a with
    | 1 | 8 => 0x10 | 12 | 14 => 1
    | 17 | 24 => 0x20 | 28 => 2
    | 34 | 35 => 0xff
    | _ => 0
  vq := ⟨virtqueueInit 32 0 2, 0xffff, 0, false, true, 0, 0⟩
  guestFeatures := 1#32 <<< virtioRingFEventIdx
  isr := 0
  notified := []

/-- Two heads are made available while the index wraps, and the first is fetched. -/
theorem virtqueue_pop_correct_wrapping : let es : List QueueEvent := [.offer 0, .offer 1, .pop]
    let q : Queued Unit := ⟨twoDescriptors, (), [], []⟩
    StepsMeet (queueStep 32 mapRam 2049) (WellFormed 32 mapRam) q es ∧
      StepsMeet (queueStep 32 mapRam 2049) (FetchesNext 32 mapRam 2049) q es := by
  intro es q
  have meets : StepsMeet (queueStep 32 mapRam 2049) (WellFormed 32 mapRam) q es := by
    refine .cons rfl ⟨by decide, by decide⟩ (.cons rfl ⟨by decide, by decide⟩
      ⟨?_, fun _ _ => trivial⟩)
    rintro head ⟨⟩
    exact ⟨0, [0, 1], by decide +kernel, by decide +kernel, by decide +kernel,
      mappable_mapRam _ (by decide +kernel), mappable_mapRam _ (by decide +kernel)⟩
  exact ⟨meets, ((virtqueue_pop_correct 32 le_rfl mapRam).2 0 1 twoDescriptors () 2049 es
    (by decide) rfl (by decide +kernel) le_rfl meets).2⟩

end QemuStm32.Virtio
