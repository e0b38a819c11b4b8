import QemuStm32.Tcg.Optimize
import QemuStm32.Lib.Rings

/-!
# The rings of copies

The temporaries that the optimizer knows to be copies of each other form
circular doubly linked lists: one member is the representative, the others
name it. `reset_temp` keeps them so (`resetTemp_spec`), and `Reset` says what it
leaves known.
-/

namespace QemuStm32.Tcg

open Function Linked List Rings

def nexts (temps : Temps) (t : Nat) : Nat := (temps t).nextCopy

def prevs (temps : Temps) (t : Nat) : Nat := (temps t).prevCopy

/-- `r` represents the members of `l`, which may be none. -/
structure Circle (ctx : TCGContext) (temps : Temps) (r : Nat) (l : List Nat) : Prop where
  ring : Ring (nexts temps) (prevs temps) r l
  head : (temps r).state = .hasCopy
  copies : ∀ a ∈ l, (temps a).state = .copy ∧ (temps a).val = r
  bounds : ∀ a ∈ r :: l, ctx.nbGlobals ≤ a ∧ a < ctx.nbTemps
  locality : ∀ a ∈ l, ctx.isLocal a = ctx.isLocal r

def Member (temps : Temps) (t : Nat) : Prop :=
  (temps t).state = .copy ∨ (temps t).state = .hasCopy

/-- Every copy, and everything that has one, is in the ring of its class. -/
def Tracked (ctx : TCGContext) (temps : Temps) : Prop :=
  ∀ t, Member temps t → ∃ r l, t ∈ r :: l ∧ l ≠ [] ∧ Circle ctx temps r l

theorem cleared_tracked (ctx : TCGContext) : Tracked ctx .cleared := by
  rintro t (h | h) <;> cases h

/-! ## Fields of a changed array -/

section
variable (temps : Temps) (t u : Nat) (st : TempState)

theorem setState_of_ne {t u : Nat} (h : u ≠ t) :
    temps.setState t st u = temps u := update_of_ne h ..

@[simp] theorem setState_state :
    (temps.setState t st u).state = if u = t then st else (temps u).state := by
  by_cases h : u = t <;> simp [Temps.setState, h]

@[simp] theorem setState_val : (temps.setState t st u).val = (temps u).val := by
  by_cases h : u = t <;> simp [Temps.setState, h]

@[simp] theorem setPrev_fields (p : Nat) : (∀ u, (temps.setPrev t p u).state = (temps u).state) ∧
    (∀ u, (temps.setPrev t p u).val = (temps u).val) ∧ nexts (temps.setPrev t p) = nexts temps ∧
    prevs (temps.setPrev t p) = Function.update (prevs temps) t p := by
  refine ⟨fun u => ?_, fun u => ?_, funext fun u => ?_, funext fun u => ?_⟩ <;>
    by_cases h : u = t <;> simp [nexts, prevs, Temps.setPrev, h]

@[simp] theorem setNext_fields (n : Nat) : (∀ u, (temps.setNext t n u).state = (temps u).state) ∧
    (∀ u, (temps.setNext t n u).val = (temps u).val) ∧
    nexts (temps.setNext t n) = Function.update (nexts temps) t n ∧
    prevs (temps.setNext t n) = prevs temps := by
  refine ⟨fun u => ?_, fun u => ?_, funext fun u => ?_, funext fun u => ?_⟩ <;>
    by_cases h : u = t <;> simp [nexts, prevs, Temps.setNext, h]

@[simp] theorem setVal_state (v : Nat) : (temps.setVal t v u).state = (temps u).state := by
  by_cases h : u = t <;> simp [Temps.setVal, h]

@[simp] theorem setVal_val (v : Nat) :
    (temps.setVal t v u).val = if u = t then v else (temps u).val := by
  by_cases h : u = t <;> simp [Temps.setVal, h]

@[simp] theorem nexts_setState : nexts (temps.setState t st) = nexts temps := by
  funext u
  by_cases h : u = t <;> simp [nexts, Temps.setState, h]

@[simp] theorem setVal_links (v : Nat) :
    nexts (temps.setVal t v) = nexts temps ∧ prevs (temps.setVal t v) = prevs temps := by
  refine ⟨funext fun u => ?_, funext fun u => ?_⟩ <;>
    by_cases h : u = t <;> simp [nexts, prevs, Temps.setVal, h]

@[simp] theorem prevs_setState : prevs (temps.setState t st) = prevs temps := by
  funext u
  by_cases h : u = t <;> simp [prevs, Temps.setState, h]

end

@[simp] theorem unlinkCopy_state (temps : Temps) (x t : Nat) :
    (unlinkCopy temps x t).state = (temps t).state := by simp [unlinkCopy]

@[simp] theorem unlinkCopy_val (temps : Temps) (x t : Nat) :
    (unlinkCopy temps x t).val = (temps t).val := by simp [unlinkCopy]

theorem unlinkCopy_links {temps : Temps} {x : Nat} (apart : nexts temps x ≠ x) :
    nexts (unlinkCopy temps x) =
        Function.update (nexts temps) (prevs temps x) (nexts temps x) ∧
      prevs (unlinkCopy temps x) =
        Function.update (prevs temps) (nexts temps x) (prevs temps x) := by
  have unchanged : ∀ p, temps.setPrev (temps x).nextCopy p x = temps x :=
    fun p => update_of_ne (Ne.symm apart) ..
  constructor
  · simp [unlinkCopy, unchanged, nexts, prevs]
  · simp [unlinkCopy, nexts, prevs]

/-! ## Classes -/

section
variable {ctx : TCGContext} {temps temps' : Temps} {r s x a : Nat} {l m : List Nat}

section
variable (h : Circle ctx temps r l)
include h

/-- The representative can be read off every member. -/
theorem Circle.head_eq (mem : a ∈ r :: l) :
    r = if (temps a).state = .copy then (temps a).val else a := by
  obtain rfl | mem := mem_cons.mp mem
  · rw [h.head]
    rfl
  · rw [if_pos (h.copies a mem).1, (h.copies a mem).2]

theorem Circle.unique (h' : Circle ctx temps s m) (mem : a ∈ r :: l)
    (mem' : a ∈ s :: m) : r = s ∧ l = m := by
  obtain rfl : r = s := (h.head_eq mem).trans (h'.head_eq mem').symm
  exact ⟨rfl, h.ring.forward.unique h'.ring.forward⟩

theorem Circle.isLocal (mem : a ∈ r :: l) : ctx.isLocal a = ctx.isLocal r := by
  obtain rfl | mem := mem_cons.mp mem
  · rfl
  · exact h.locality a mem

theorem Circle.congr (same : ∀ a ∈ r :: l, temps' a = temps a) :
    Circle ctx temps' r l where
  ring := h.ring.congr (fun a ha => congrArg TempInfo.nextCopy (same a ha))
    fun a ha => congrArg TempInfo.prevCopy (same _ (h.ring.next_mem ha))
  head := by rw [same r mem_cons_self, h.head]
  copies := fun a ha => by
    rw [same a (.tail _ ha)]
    exact h.copies a ha
  bounds := h.bounds
  locality := h.locality

end

section
variable (h : Tracked ctx temps)
include h

theorem Tracked.of_head (hr : (temps r).state = .hasCopy) : ∃ l, l ≠ [] ∧ Circle ctx temps r l := by
  obtain ⟨s, l, mem, some, circle⟩ := h r (.inr hr)
  obtain rfl : s = r := (circle.head_eq mem).trans (by rw [hr]; rfl)
  exact ⟨l, some, circle⟩

theorem Tracked.of_copy (hx : (temps x).state = .copy) :
    ∃ l, x ∈ l ∧ Circle ctx temps (temps x).val l := by
  obtain ⟨s, l, mem, -, circle⟩ := h x (.inl hx)
  obtain rfl : s = (temps x).val := (circle.head_eq mem).trans (if_pos hx)
  refine ⟨l, (mem_cons.mp mem).resolve_left fun same => ?_, circle⟩
  have head := circle.head
  rw [← same, hx] at head
  cases head

theorem Tracked.base (t : Nat) (ht : (temps t).state = .copy) :
    (temps (temps t).val).state = .hasCopy := by
  obtain ⟨l, -, circle⟩ := h.of_copy ht
  exact circle.head

theorem Tracked.bounds (t : Nat) (ht : Member temps t) : ctx.nbGlobals ≤ t ∧ t < ctx.nbTemps := by
  obtain ⟨r, l, mem, -, circle⟩ := h t ht
  exact circle.bounds t mem

theorem Tracked.locality (t : Nat) (ht : (temps t).state = .copy) :
    ctx.isLocal t = ctx.isLocal (temps t).val := by
  obtain ⟨l, mem, circle⟩ := h.of_copy ht
  exact circle.locality t mem

end

theorem Circle.member (h : Circle ctx temps r l) (mem : a ∈ r :: l) : Member temps a := by
  obtain rfl | mem := mem_cons.mp mem
  · exact .inr h.head
  · exact .inl (h.copies a mem).1

/-- A change inside a set of temporaries that has every class whole or not at all. -/
theorem Tracked.change (h : Tracked ctx temps) (S : Nat → Prop)
    (closed : ∀ {s m}, Circle ctx temps s m → ∀ {a b}, a ∈ s :: m → b ∈ s :: m → S a → S b)
    (same : ∀ t, ¬ S t → temps' t = temps t)
    (new : ∀ t, S t → Member temps' t → ∃ r l, t ∈ r :: l ∧ l ≠ [] ∧ Circle ctx temps' r l) :
    Tracked ctx temps' := by
  intro t mem
  by_cases inside : S t
  · exact new t inside mem
  · unfold Member at mem
    rw [same t inside] at mem
    obtain ⟨r, l, mem, some, circle⟩ := h t mem
    refine ⟨r, l, mem, some, circle.congr fun a ha => same a fun inside' => ?_⟩
    exact inside (closed circle ha mem inside')

/-- The members of a class are such a set. -/
theorem Circle.closed (h : Circle ctx temps r l) (h' : Circle ctx temps s m) {a b : Nat}
    (ha : a ∈ s :: m) (hb : b ∈ s :: m) (inside : a ∈ r :: l) : b ∈ r :: l := by
  obtain ⟨rfl, rfl⟩ := h.unique h' inside ha
  exact hb

/-- A temporary that is in no class is one, too. -/
theorem Tracked.change_idle (h : Tracked ctx temps) (idle : ¬ Member temps x)
    (idle' : ¬ Member temps' x) (same : ∀ t, t ≠ x → temps' t = temps t) : Tracked ctx temps' := by
  refine h.change (· = x) (fun circle a b ha _ => ?_) same ?_
  · rintro rfl
    exact absurd (circle.member ha) idle
  · rintro t rfl mem
    exact absurd mem idle'

/-- The members of a class, as the loops of `reset_temp` visit them. -/
theorem copiesFrom_eq {a fuel : Nat} (h : Chain (nexts temps) x a l) (enough : l.length < fuel) :
    copiesFrom temps x fuel a = .ok l := by
  induction h generalizing fuel with
  | nil =>
    cases fuel with
    | zero => simp at enough
    | succ fuel => rw [copiesFrom, if_pos rfl]
  | @cons a l ne rest ih =>
    cases fuel with
    | zero => simp at enough
    | succ fuel =>
      rw [copiesFrom, if_neg ne]
      have tail : copiesFrom temps x fuel (temps a).nextCopy = .ok l := ih (by simpa using enough)
      rw [tail]
      rfl

/-! ## Resetting a temporary -/

/-- What is still known once `x` is reset. A copy of `x` is known as a copy of the one
that came after `x`. -/
structure Reset (temps : Temps) (x : Nat) (temps' : Temps) : Prop where
  free : (temps' x).state = .any
  const : ∀ t, (temps' t).state = .const →
    (temps t).state = .const ∧ (temps' t).val = (temps t).val
  copy : ∀ t, (temps' t).state = .copy → (temps t).state = .copy ∧
    ((temps' t).val = (temps t).val ∨ (temps t).val = x ∧ (temps' t).val = (temps x).nextCopy ∧
      (temps (temps x).nextCopy).state = .copy ∧ (temps (temps x).nextCopy).val = x)
  member : ∀ t, Member temps' t → Member temps t

theorem setAny_old {t : Nat} {st : TempState} (h : (temps.setState r .any t).state = st)
    (known : st ≠ .any) : (temps t).state = st := by
  rw [setState_state] at h
  split at h
  · exact absurd h.symm known
  · exact h

theorem Member.setAny_old {t : Nat} (h : Member (temps.setState r .any) t) : Member temps t :=
  h.imp (Tcg.setAny_old · (by decide)) (Tcg.setAny_old · (by decide))

theorem Reset.setAny (h : Reset temps x temps') (r : Nat) :
    Reset temps x (temps'.setState r .any) := by
  constructor
  · rw [setState_state]
    split
    · rfl
    · exact h.free
  · intro t ht
    rw [setState_val]
    exact h.const t (setAny_old ht (by decide))
  · intro t ht
    rw [setState_val]
    exact h.copy t (setAny_old ht (by decide))
  · exact fun t ht => h.member t ht.setAny_old

theorem Reset.dropSingle (h : Reset temps x temps') (base : Option Nat) :
    Reset temps x (dropSingle temps' base) := by
  unfold Tcg.dropSingle
  split
  · exact h
  · split
    · exact h.setAny _
    · exact h

/-- What is known before `x` is forgotten. -/
theorem Reset.forget {el : Temps}
    (const : ∀ t, (el t).state = .const → (temps t).state = .const ∧ (el t).val = (temps t).val)
    (copy : ∀ t, (el t).state = .copy → (temps t).state = .copy ∧
      ((el t).val = (temps t).val ∨ (temps t).val = x ∧ (el t).val = (temps x).nextCopy ∧
        (temps (temps x).nextCopy).state = .copy ∧ (temps (temps x).nextCopy).val = x))
    (member : ∀ t, Member el t → Member temps t) : Reset temps x (el.setState x .any) := by
  refine ⟨?_, fun t ht => ?_, fun t ht => ?_, fun t ht => member t ht.setAny_old⟩
  · rw [setState_state, if_pos rfl]
  · rw [setState_val]
    exact const t (setAny_old ht (by decide))
  · rw [setState_val]
    exact copy t (setAny_old ht (by decide))

/-- A temporary that is in no ring. -/
theorem reset_idle (h : Tracked ctx temps) (idle : ¬ Member temps x) :
    Tracked ctx (temps.setState x .any) ∧ Reset temps x (temps.setState x .any) :=
  ⟨h.change_idle idle (by simp [Member]) fun t ht => setState_of_ne _ _ ht,
    .forget (fun t ht => ⟨ht, rfl⟩) (fun t ht => ⟨ht, .inl rfl⟩) fun t ht => ht⟩

/-- The last step of `reset_temp` forgets a representative without copies. -/
theorem Circle.dropSingle (h : Circle ctx temps r l) :
    (∀ t, t ≠ r → dropSingle temps (some r) t = temps t) ∧
      ∀ t ∈ r :: l, Member (dropSingle temps (some r)) t →
        l ≠ [] ∧ Circle ctx (dropSingle temps (some r)) r l := by
  by_cases alone : l = []
  · subst alone
    have single : Tcg.dropSingle temps (some r) = temps.setState r .any :=
      if_pos h.ring.next_head_eq
    rw [single]
    refine ⟨fun t ht => setState_of_ne _ _ ht, fun t ht mem => ?_⟩
    obtain rfl := mem_singleton.mp ht
    simp [Member] at mem
  · have same : Tcg.dropSingle temps (some r) = temps := if_neg (h.ring.next_head_ne alone)
    rw [same]
    exact ⟨fun _ _ => rfl, fun _ _ _ => ⟨alone, h⟩⟩

/-- A member leaves its ring, in which `b` represents the others from now on. -/
theorem Tracked.leave {el : Temps} {b : Nat} (h : Tracked ctx temps) (circle : Circle ctx temps r l)
    (hx : x ∈ r :: l) (apart : nexts el x ≠ x) (outside : ∀ a, a ∉ r :: l → el a = temps a)
    (links : nexts el = nexts temps ∧ prevs el = prevs temps)
    (ring : Ring (Function.update (nexts el) (prevs el x) (nexts el x))
      (Function.update (prevs el) (nexts el x) (prevs el x)) b m)
    (members : ∀ a, a ∈ b :: m ↔ a ∈ r :: l ∧ a ≠ x) (head : (el b).state = .hasCopy)
    (copies : ∀ a ∈ m, (el a).state = .copy ∧ (el a).val = b) :
    Tracked ctx (Tcg.dropSingle ((unlinkCopy el x).setState x .any) (some b)) := by
  have inside : ∀ a ∈ b :: m, a ∈ r :: l ∧ a ≠ x := fun a ha => (members a).mp ha
  have first := inside b mem_cons_self
  have old := circle.ring
  rw [← links.1, ← links.2] at old
  have state : ∀ t, ((unlinkCopy el x).setState x .any t).state =
      if t = x then .any else (el t).state := by simp
  have kept : ∀ a, a ∉ r :: l → (unlinkCopy el x).setState x .any a = temps a := by
    intro a ha
    have notX : a ≠ x := fun e => ha (e ▸ hx)
    have notNext : a ≠ (el x).nextCopy := fun e => ha (e ▸ old.next_mem hx)
    have notPrev : a ≠ (el x).prevCopy := fun e => ha (e ▸ (old.next_prev hx).1)
    have self : el.setPrev (el x).nextCopy (el x).prevCopy x = el x :=
      update_of_ne (Ne.symm apart) ..
    rw [setState_of_ne _ _ notX, ← outside a ha]
    simp only [unlinkCopy, self]
    exact (update_of_ne notPrev ..).trans (update_of_ne notNext ..)
  have own : Circle ctx ((unlinkCopy el x).setState x .any) b m := by
    refine ⟨?_, ?_, fun a ha => ?_, fun a ha => circle.bounds a (inside a ha).1, fun a ha => ?_⟩
    · rwa [nexts_setState, prevs_setState, (unlinkCopy_links apart).1, (unlinkCopy_links apart).2]
    · rw [state, if_neg first.2, head]
    · rw [state, if_neg (inside a (.tail _ ha)).2, setState_val, unlinkCopy_val]
      exact copies a ha
    · rw [circle.isLocal (inside a (.tail _ ha)).1, circle.isLocal first.1]
  obtain ⟨others, ours⟩ := own.dropSingle
  refine h.change (· ∈ r :: l) circle.closed (fun t ht => ?_) fun t ht mem => ?_
  · rw [others t fun e => ht (e ▸ first.1), kept t ht]
  have ne : t ≠ x := by
    rintro rfl
    unfold Member at mem
    rw [others t first.2.symm] at mem
    simp at mem
  have within := (members t).mpr ⟨ht, ne⟩
  exact ⟨b, m, within, ours t within mem⟩

/-- A member that names its representative leaves the ring. -/
theorem reset_copy (h : Tracked ctx temps) (hx : (temps x).state = .copy) :
    Tracked ctx (dropSingle ((unlinkCopy temps x).setState x .any) (some (temps x).val)) ∧
      Reset temps x (dropSingle ((unlinkCopy temps x).setState x .any) (some (temps x).val)) := by
  obtain ⟨l, hxl, circle⟩ := h.of_copy hx
  have notHead : (temps x).val ≠ x := by
    intro e
    have stop := circle.ring.forward.stop_notMem
    rw [e] at stop
    exact stop hxl
  have nodup := circle.ring.forward.nodup
  constructor
  · refine h.leave circle (.tail _ hxl) (circle.ring.forward.next_ne hxl)
      (fun _ _ => rfl) ⟨rfl, rfl⟩ (circle.ring.unlink hxl) (fun a => ?_) circle.head
      fun a ha => circle.copies a (mem_of_mem_erase ha)
    rw [mem_cons, mem_cons, nodup.mem_erase_iff]
    constructor
    · rintro (rfl | ⟨ne, mem⟩)
      · exact ⟨.inl rfl, notHead⟩
      · exact ⟨.inr mem, ne⟩
    · rintro ⟨first | mem, ne⟩
      · exact .inl first
      · exact .inr ⟨ne, mem⟩
  · refine Reset.dropSingle (.forget ?_ ?_ ?_) _
    · simp
    · simp +contextual
    · simp [Member]

/-! ## A new representative -/

theorem electBase_apply (temps : Temps) (members : List Nat) (b t : Nat) :
    electBase temps members (some b) t =
      if t ∈ members then { temps.setState b .hasCopy t with val := b }
      else temps.setState b .hasCopy t := by
  have loop (start : Temps) : members.foldl (fun temps i => temps.setVal i b) start t =
      if t ∈ members then { start t with val := b } else start t := by
    induction members generalizing start with
    | nil => rfl
    | cons i rest ih =>
      rw [foldl_cons, ih]
      by_cases here : t = i <;> simp [Temps.setVal, here]
  exact loop _

/-- The representative leaves the ring and its first copy takes its place. -/
theorem reset_base {b : Nat} (h : Tracked ctx temps) (circle : Circle ctx temps x (b :: l)) :
    Tracked ctx (dropSingle ((unlinkCopy (electBase temps (b :: l) (some b)) x).setState x .any)
        (some b)) ∧
      Reset temps x (dropSingle
        ((unlinkCopy (electBase temps (b :: l) (some b)) x).setState x .any) (some b)) := by
  obtain ⟨bCopy, bVal⟩ := circle.copies b mem_cons_self
  obtain ⟨xFresh, rest⟩ := nodup_cons.mp circle.ring.nodup
  have bFresh : b ∉ l := (nodup_cons.mp rest).1
  have first : (temps x).nextCopy = b := circle.ring.next_head
  have elected := electBase_apply temps (b :: l) b
  have outside : ∀ t, t ∉ b :: l → electBase temps (b :: l) (some b) t = temps t := by
    intro t ht
    have ne : t ≠ b := fun e => ht (mem_cons.mpr (.inl e))
    rw [elected, if_neg ht, setState_of_ne _ _ ne]
  have state : ∀ t, (electBase temps (b :: l) (some b) t).state =
      if t = b then .hasCopy else (temps t).state := by
    intro t
    rw [elected, ← setState_state]
    split <;> rfl
  have val : ∀ t, (electBase temps (b :: l) (some b) t).val =
      if t ∈ b :: l then b else (temps t).val := by
    intro t
    rw [elected, ← setState_val temps b t .hasCopy]
    split <;> rfl
  have next : nexts (electBase temps (b :: l) (some b)) = nexts temps := by
    funext t
    rw [← nexts_setState temps b .hasCopy, nexts, elected]
    split <;> rfl
  have prev : prevs (electBase temps (b :: l) (some b)) = prevs temps := by
    funext t
    rw [← prevs_setState temps b .hasCopy, prevs, elected]
    split <;> rfl
  have ring := circle.ring
  rw [← next, ← prev] at ring
  constructor
  · refine h.leave circle mem_cons_self (ring.next_head_ne (cons_ne_nil b l))
      (fun a ha => outside a fun mem => ha (.tail _ mem)) ⟨next, prev⟩
      ring.unlink_head (fun a => ?_) (by rw [state, if_pos rfl]) fun a ha => ?_
    · refine ⟨fun mem => ⟨.tail _ mem, fun e => xFresh (e ▸ mem)⟩, fun mem => ?_⟩
      exact (mem_cons.mp mem.1).resolve_left mem.2
    · have inside := mem_cons_of_mem b ha
      have ne : a ≠ b := fun e => bFresh (e ▸ ha)
      rw [state, if_neg ne, val, if_pos inside]
      exact ⟨(circle.copies a inside).1, rfl⟩
  · refine Reset.dropSingle (.forget (fun t ht => ?_) (fun t ht => ?_) fun t ht => ?_) _
    · rw [unlinkCopy_state, state] at ht
      split at ht
      · cases ht
      · refine ⟨ht, ?_⟩
        rw [unlinkCopy_val, val, if_neg fun mem => ?_]
        rw [(circle.copies t mem).1] at ht
        cases ht
    · rw [unlinkCopy_state, state] at ht
      split at ht
      · cases ht
      · refine ⟨ht, ?_⟩
        rw [unlinkCopy_val, val]
        split
        · next mem =>
          rw [first]
          exact .inr ⟨(circle.copies t mem).2, rfl, bCopy, bVal⟩
        · exact .inl rfl
    · unfold Member at ht
      rw [unlinkCopy_state, state] at ht
      split at ht
      · next e => exact .inl (e ▸ bCopy)
      · exact ht

/-- `reset_temp` ends, keeps the rings and forgets the temporary. -/
theorem resetTemp_spec (h : Tracked ctx temps) (x : Nat) :
    ∃ temps', resetTemp ctx temps x = .ok temps' ∧ Tracked ctx temps' ∧ Reset temps x temps' := by
  unfold resetTemp
  cases hx : (temps x).state with
  | hasCopy =>
    obtain ⟨l, some, circle⟩ := h.of_head hx
    have inside : ∀ t ∈ l, ctx.nbGlobals ≤ t ∧ t < ctx.nbTemps :=
      fun t ht => circle.bounds t (.tail _ ht)
    have short := circle.ring.forward.length_le fun t ht => (inside t ht).2
    have visited : copiesFrom temps x (ctx.nbTemps + 1) (temps x).nextCopy = .ok l :=
      copiesFrom_eq circle.ring.forward (by omega)
    cases l with
    | nil => exact absurd rfl some
    | cons b l =>
      have elected : (b :: l).find? (fun i => decide (ctx.nbGlobals ≤ i)) = Option.some b :=
        find?_cons_of_pos (by simpa using (inside b mem_cons_self).1)
      refine ⟨_, ?_, reset_base h circle⟩
      rw [visited]
      dsimp only [Bind.bind, Except.bind]
      rw [elected]
  | copy => exact ⟨_, rfl, reset_copy h hx⟩
  | undef | const | any => exact ⟨_, rfl, reset_idle h (by simp [Member, hx])⟩

end

end QemuStm32.Tcg
