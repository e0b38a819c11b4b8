import QemuStm32.Fault
import QemuStm32.Lib.Runs
import QemuStm32.Lib.SlotLists

/-!
# Timers

`qemu_del_timer`, `qemu_mod_timer_ns` and `qemu_run_timers` of `qemu-timer.c`, on the list
of the active timers of one clock. A callback is what happens between the call of it and
its return, and may contain any of the operations.

`timers_in_order`: the list is sorted at every moment, a timer is called exactly if it is
at the head and expired, and `qemu_run_timers` leaves no expired timer.
-/

namespace QemuStm32.Timers

open Runs SlotLists Function List

/-! ## Model -/

/-- A `QEMUTimer *`, by its number among those of the clock. -/
abbrev Timer := Nat

/-- A `QEMUClock` and the fields of its timers. `armings` and `armed` are not in the source:
they number the calls of `qemu_mod_timer_ns`. -/
structure Clock where
  enabled : Bool
  nbTimers : Nat
  /-- `active_timers`, and the `next` of every timer. -/
  links : Pointers Unit Timer
  expireTime : Timer → Int
  armings : Nat
  armed : Timer → Nat

def activeTimers : Slot Unit Timer := .head ()

def qemuTimerExpiredNs (c : Clock) (timerHead : Option Timer) (currentTime : Int) : Bool :=
  match timerHead with
  | some t => decide (c.expireTime t ≤ currentTime)
  | none => false

/-- The slot at which a loop over the active timers ends. A loop that meets more timers
than there are never ends. -/
def seekTimer (c : Clock) (stop : Timer → Bool) : Except Fault (Slot Unit Timer) :=
  match c.links.seek stop (c.nbTimers + 1) activeTimers with
  | some pt => .ok pt
  | none => .error .endlessLoop

def qemuDelTimer (c : Clock) (ts : Timer) : Except Fault Clock :=
  seekTimer c (fun t => t == ts) >>= fun pt =>
    match c.links.read pt with
    | none => .ok c
    | some t => .ok { c with links := c.links.assign (c.links.next t) pt }

def qemuModTimerNs (c : Clock) (ts : Timer) (expireTime : Int) : Except Fault Clock :=
  qemuDelTimer c ts >>= fun c =>
    seekTimer c (fun t => !qemuTimerExpiredNs c (some t) expireTime) >>= fun pt =>
      .ok { c with
        expireTime := update c.expireTime ts expireTime
        links := ({ c.links with
          next := update c.links.next ts (c.links.read pt) } : Pointers Unit Timer).assign
            (some ts) pt
        armings := c.armings + 1
        armed := update c.armed ts c.armings }

/-- The clock, the `current_time` of each `qemu_run_timers` that has not returned, the
innermost first, and the timers whose callbacks were called. -/
structure Machine where
  clock : Clock
  running : List Int
  called : List Timer

/-- One round of the loop of `qemu_run_timers`, which ends with the call of a callback or with
the return. -/
def runTimer (m : Machine) (currentTime : Int) (outer : List Int) : Machine :=
  match m.clock.links.read activeTimers with
  | some ts =>
    if qemuTimerExpiredNs m.clock (some ts) currentTime then
      let links := m.clock.links.assign (m.clock.links.next ts) activeTimers
      { clock := { m.clock with links := links.assign none (.after ts) }
        running := currentTime :: outer
        called := m.called ++ [ts] }
    else { m with running := outer }
  | none => { m with running := outer }

inductive Event
  | modTimer (ts : Timer) (expireTime : Int)
  | delTimer (ts : Timer)
  | runTimers (currentTime : Int)
  | callbackReturns

/-- The timer belongs to the clock, which has `n` timers. -/
def Event.Valid (n : Nat) : Event → Prop
  | .modTimer ts _ | .delTimer ts => ts < n
  | .runTimers _ | .callbackReturns => True

instance : ∀ (n : Nat) (e : Event), Decidable (e.Valid n)
  | _, .modTimer _ _ | _, .delTimer _ => inferInstanceAs (Decidable (_ < _))
  | _, .runTimers _ | _, .callbackReturns => inferInstanceAs (Decidable True)

def step (m : Machine) : Event → Except Fault Machine
  | .modTimer ts expireTime =>
    qemuModTimerNs m.clock ts expireTime >>= fun c => .ok { m with clock := c }
  | .delTimer ts => qemuDelTimer m.clock ts >>= fun c => .ok { m with clock := c }
  | .runTimers currentTime =>
    .ok (if m.clock.enabled then runTimer m currentTime m.running else m)
  | .callbackReturns =>
    match m.running with
    | [] => .ok m
    | currentTime :: outer => .ok (runTimer m currentTime outer)

/-- `n` timers that are not active. -/
def fresh (enabled : Bool) (n : Nat) (expireTime : Timer → Int) : Machine where
  clock := ⟨enabled, n, ⟨fun _ => none, fun _ => none⟩, expireTime, 0, fun _ => 0⟩
  running := []
  called := []

/-! ## The list -/

/-- By the time of expiry, and for the same time in the order of arming. -/
def Clock.Before (c : Clock) (a b : Timer) : Prop :=
  c.expireTime a < c.expireTime b ∨ c.expireTime a = c.expireTime b ∧ c.armed a < c.armed b

/-- The active timers. -/
structure Active (c : Clock) (l : List Timer) : Prop where
  hangs : c.links.Hangs activeTimers l
  nodup : l.Nodup
  ordered : l.Pairwise c.Before

structure Sound (c : Clock) (l : List Timer) : Prop extends Active c l where
  bound : ∀ t ∈ l, t < c.nbTimers
  past : ∀ t ∈ l, c.armed t < c.armings

section
variable {c c' : Clock} {l : List Timer} {ts : Timer} {time : Int}

theorem Sound.length_le (h : Sound c l) : l.length ≤ c.nbTimers := by
  have sub : l ⊆ range c.nbTimers := fun t mem => mem_range.mpr (h.bound t mem)
  simpa using (subperm_of_subset h.nodup sub).length_le

theorem Sound.seekTimer (h : Sound c l) (stop : Timer → Bool) :
    seekTimer c stop = .ok (Pointers.endSlot activeTimers (l.takeWhile fun t => !stop t)) := by
  unfold Timers.seekTimer
  rw [h.hangs.seek stop (Nat.lt_succ_of_le h.length_le)]

theorem outside (l : List Timer) : ∀ t ∈ l, activeTimers ≠ .after t := fun _ _ => nofun

/-- Part of a list, in the same clock but for the links. -/
theorem Sound.sublist (h : Sound c l) {l' : List Timer} (sub : l'.Sublist l)
    {links : Pointers Unit Timer} (hangs : links.Hangs activeTimers l') :
    Sound { c with links := links } l' :=
  ⟨⟨hangs, h.nodup.sublist sub, h.ordered.sublist sub⟩, fun t mem => h.bound t (sub.subset mem),
    fun t mem => h.past t (sub.subset mem)⟩

theorem takeWhile_ne_of_mem {l : List Timer} (mem : ts ∈ l) :
    ∃ r, l = l.takeWhile (fun t => !(t == ts)) ++ ts :: r ∧
      l.erase ts = l.takeWhile (fun t => !(t == ts)) ++ r := by
  induction l with
  | nil => cases mem
  | cons a l ih =>
    by_cases same : a = ts
    · subst same
      exact ⟨l, by simp, by simp⟩
    · obtain ⟨r, split, erased⟩ := ih ((mem_cons.mp mem).resolve_left (Ne.symm same))
      refine ⟨r, ?_, ?_⟩
      · rw [takeWhile_cons_of_pos (by simpa using same), cons_append, ← split]
      · rw [takeWhile_cons_of_pos (by simpa using same), cons_append,
          erase_cons_tail (by simpa using same), erased]

theorem qemuDelTimer_sound (h : Sound c l) (ts : Timer) :
    ∃ links, qemuDelTimer c ts = .ok { c with links := links } ∧
      Sound { c with links := links } (l.erase ts) := by
  unfold qemuDelTimer
  rw [h.seekTimer, ok_bind]
  by_cases mem : ts ∈ l
  · obtain ⟨r, split, erased⟩ := takeWhile_ne_of_mem mem
    generalize l.takeWhile (fun t => !(t == ts)) = before at split erased ⊢
    subst split
    have found := h.hangs.behind.1
    rw [found, erased]
    refine ⟨_, rfl, h.sublist ?_ (h.hangs.remove h.nodup (outside _))⟩
    exact (sublist_cons_self ts r).append_left before
  · have all : l.takeWhile (fun t => !(t == ts)) = l := by
      rw [takeWhile_eq_self_iff]
      intro t inside
      simp only [Bool.not_eq_true', beq_eq_false_iff_ne]
      rintro rfl
      exact mem inside
    have ended : c.links.read (Pointers.endSlot activeTimers l) = none := by
      have h := h.hangs
      rw [← append_nil l] at h
      exact h.behind
    rw [all, ended, erase_of_not_mem mem]
    exact ⟨c.links, rfl, h⟩

theorem Clock.Before.le {a b : Timer} (h : c.Before a b) : c.expireTime a ≤ c.expireTime b := by
  obtain lt | ⟨eq, -⟩ := h
  · exact Int.le_of_lt lt
  · exact Int.le_of_eq eq

/-- Behind the first timer that is not expired there is none that is. -/
theorem Sound.dropWhile_late (h : Sound c l) :
    ∀ t ∈ l.dropWhile (fun t => qemuTimerExpiredNs c (some t) time), time < c.expireTime t := by
  have ordered := h.ordered
  clear h
  induction l with
  | nil => nofun
  | cons a l ih =>
    rw [pairwise_cons] at ordered
    by_cases expired : qemuTimerExpiredNs c (some a) time
    · rw [dropWhile_cons_of_pos (p := fun t => qemuTimerExpiredNs c (some t) time) expired]
      exact ih ordered.2
    rw [dropWhile_cons_of_neg (p := fun t => qemuTimerExpiredNs c (some t) time) expired]
    have late : time < c.expireTime a := by simpa [qemuTimerExpiredNs] using expired
    intro t mem
    obtain rfl | mem := mem_cons.mp mem
    · exact late
    · exact Int.lt_of_lt_of_le late (ordered.1 t mem).le

/-- A timer that is not active is put behind all that expire at its time or earlier. -/
theorem Sound.arm {before after : List Timer} (h : Sound c (before ++ after))
    (fresh : ts ∉ before ++ after) (bound : ts < c.nbTimers)
    (early : ∀ t ∈ before, c.expireTime t ≤ time) (late : ∀ t ∈ after, time < c.expireTime t) :
    Sound { c with
      expireTime := update c.expireTime ts time
      links := ({ c.links with
        next := update c.links.next ts
          (c.links.read (Pointers.endSlot activeTimers before)) } : Pointers Unit Timer).assign
            (some ts) (Pointers.endSlot activeTimers before)
      armings := c.armings + 1
      armed := update c.armed ts c.armings } (before ++ ts :: after) := by
  have ne : ∀ t ∈ before ++ after, t ≠ ts := fun t mem same => fresh (same ▸ mem)
  have perm : (before ++ ts :: after).Perm (ts :: (before ++ after)) := perm_middle
  refine ⟨⟨h.hangs.insert h.nodup (outside _) fresh nofun, ?_, ?_⟩, fun t mem => ?_,
    fun t mem => ?_⟩
  · rw [perm.nodup_iff, nodup_cons]
    exact ⟨fresh, h.nodup⟩
  · obtain ⟨ordered₁, ordered₂, across⟩ := pairwise_append.mp h.ordered
    -- the order of the others is the old one
    have kept : ∀ a ∈ before ++ after, ∀ b ∈ before ++ after, c.Before a b →
        Clock.Before { c with
          expireTime := update c.expireTime ts time
          armed := update c.armed ts c.armings } a b := by
      intro a memA b memB
      simp only [Clock.Before, update_of_ne (ne a memA), update_of_ne (ne b memB)]
      exact id
    refine pairwise_append.mpr ⟨ordered₁.imp_of_mem fun memA memB =>
      kept _ (mem_append_left _ memA) _ (mem_append_left _ memB),
      pairwise_cons.mpr ⟨fun b memB => ?_, ordered₂.imp_of_mem fun memA memB =>
        kept _ (mem_append_right _ memA) _ (mem_append_right _ memB)⟩,
      fun a memA b memB => ?_⟩
    · left
      dsimp only
      rw [update_self, update_of_ne (ne b (mem_append_right _ memB))]
      exact late b memB
    · obtain rfl | memB := mem_cons.mp memB
      · have memA' := mem_append_left after memA
        simp only [Clock.Before, update_self, update_of_ne (ne a memA')]
        obtain lt | eq := Int.lt_or_eq_of_le (early a memA)
        · exact .inl lt
        · exact .inr ⟨eq, h.past a memA'⟩
      · exact kept _ (mem_append_left _ memA) _ (mem_append_right _ memB) (across a memA b memB)
  · obtain rfl | mem := mem_cons.mp (perm.mem_iff.mp mem)
    · exact bound
    · exact h.bound t mem
  · dsimp only
    obtain rfl | mem := mem_cons.mp (perm.mem_iff.mp mem)
    · rw [update_self]
      exact Nat.lt_succ_self _
    · rw [update_of_ne (ne t mem)]
      exact Nat.lt_succ_of_lt (h.past t mem)

theorem qemuModTimerNs_sound (h : Sound c l) (bound : ts < c.nbTimers) (time : Int) :
    ∃ c' before after, qemuModTimerNs c ts time = .ok c' ∧ l.erase ts = before ++ after ∧
      Sound c' (before ++ ts :: after) ∧ c'.expireTime = update c.expireTime ts time ∧
      c'.nbTimers = c.nbTimers ∧ c'.enabled = c.enabled := by
  unfold qemuModTimerNs
  obtain ⟨links, deleted, h₁⟩ := qemuDelTimer_sound h ts
  rw [deleted, ok_bind, h₁.seekTimer]
  have cut := takeWhile_append_dropWhile
    (p := fun t => qemuTimerExpiredNs { c with links := links } (some t) time) (l := l.erase ts)
  simp only [Bool.not_not]
  refine ⟨_, _, _, rfl, cut.symm, ?_, rfl, rfl, rfl⟩
  rw [← cut] at h₁
  refine h₁.arm ?_ bound (fun t mem => ?_) ?_
  · rw [cut, h.nodup.mem_erase_iff]
    exact fun both => both.1 rfl
  · have expired := mem_takeWhile_imp mem
    simpa [qemuTimerExpiredNs] using expired
  · rw [cut] at h₁
    exact h₁.dropWhile_late

/-! ## Runs -/

/-- What a round of `qemu_run_timers` does with the list `l`: the head is expired and its
callback is called, or no timer of the list is expired and `qemu_run_timers` returns. -/
def Round (m : Machine) (now : Int) (outer : List Int) (m' : Machine) (l l' : List Timer) : Prop :=
  (∃ ts, l = ts :: l' ∧ m.clock.expireTime ts ≤ now ∧ m'.called = m.called ++ [ts] ∧
    m'.running = now :: outer) ∨
  (∀ ts ∈ l, now < m.clock.expireTime ts) ∧ l' = l ∧ m'.called = m.called ∧ m'.running = outer

/-- What an event does with the list of the active timers. -/
def Described (m : Machine) (e : Event) : Prop :=
  ∃ m' l l', step m e = .ok m' ∧ Active m.clock l ∧ Active m'.clock l' ∧
    match e with
    | .modTimer ts time => ts ∈ l' ∧ l'.erase ts = l.erase ts ∧
      m'.clock.expireTime = update m.clock.expireTime ts time ∧
      m'.called = m.called ∧ m'.running = m.running
    | .delTimer ts => l' = l.erase ts ∧ m'.called = m.called ∧ m'.running = m.running
    | .runTimers now => if m.clock.enabled then Round m now m.running m' l l' else m' = m
    | .callbackReturns =>
      match m.running with
      | [] => m' = m
      | now :: outer => Round m now outer m' l l'

variable {m : Machine}

theorem runTimer_sound (h : Sound m.clock l) (now : Int) (outer : List Int) :
    ∃ l', Sound (runTimer m now outer).clock l' ∧ Round m now outer (runTimer m now outer) l l' ∧
      (runTimer m now outer).clock.nbTimers = m.clock.nbTimers := by
  unfold runTimer
  cases l with
  | nil =>
    rw [show m.clock.links.read activeTimers = none from h.hangs]
    exact ⟨[], h, .inr ⟨nofun, rfl, rfl, rfl⟩, rfl⟩
  | cons ts l =>
    rw [h.hangs.1]
    dsimp only
    split
    · rename_i expired
      have hangs : m.clock.links.Hangs activeTimers ([] ++ ts :: l) := h.hangs
      have removed := hangs.remove h.nodup (outside _)
      have apart : ts ∉ l := (nodup_cons.mp h.nodup).1
      refine ⟨l, h.sublist (sublist_cons_self ts l) (removed.congr rfl fun t mem => ?_),
        .inl ⟨ts, rfl, by simpa [qemuTimerExpiredNs] using expired, rfl, rfl⟩, rfl⟩
      refine update_of_ne ?_ ..
      rintro rfl
      exact apart mem
    · rename_i late
      refine ⟨ts :: l, h, .inr ⟨fun t mem => h.dropWhile_late t ?_, rfl, rfl, rfl⟩, rfl⟩
      rw [dropWhile_cons_of_neg (p := fun t => qemuTimerExpiredNs m.clock (some t) now) late]
      exact mem

/-- The invariant of a clock with `n` timers. -/
def Consistent (n : Nat) (m : Machine) : Prop := m.clock.nbTimers = n ∧ ∃ l, Sound m.clock l

theorem step_sound {n : Nat} {e : Event} (h : Consistent n m) (valid : e.Valid n) :
    Described m e ∧ ∃ m', step m e = .ok m' ∧ Consistent n m' := by
  obtain ⟨rfl, l, h⟩ := h
  -- each operation gives the next machine and its list
  have finish : ∀ {m' : Machine} {l' : List Timer}, step m e = .ok m' → Sound m'.clock l' →
      m'.clock.nbTimers = m.clock.nbTimers →
      ∃ m', step m e = .ok m' ∧ Consistent m.clock.nbTimers m' :=
    fun ok sound same => ⟨_, ok, same, _, sound⟩
  cases e with
  | modTimer ts time =>
    obtain ⟨c, before, after, ok, erased, sound, expire, same, -⟩ :=
      qemuModTimerNs_sound h valid time
    have next : step m (.modTimer ts time) = .ok { m with clock := c } := by
      rw [step, ok, ok_bind]
    have fresh : ts ∉ before := fun mem =>
      (h.nodup.mem_erase_iff.mp (erased ▸ mem_append_left after mem)).1 rfl
    refine ⟨⟨_, _, _, next, h.toActive, sound.toActive, ?_, ?_, expire, rfl, rfl⟩,
      finish next sound same⟩
    · exact mem_append_right before mem_cons_self
    · rw [erase_append_right _ fresh, erase_cons_head, erased]
  | delTimer ts =>
    obtain ⟨links, ok, sound⟩ := qemuDelTimer_sound h ts
    have next : step m (.delTimer ts) =
        .ok { m with clock := { m.clock with links := links } } := by
      rw [step, ok, ok_bind]
    exact ⟨⟨_, _, _, next, h.toActive, sound.toActive, rfl, rfl, rfl⟩, finish next sound rfl⟩
  | runTimers now =>
    by_cases enabled : m.clock.enabled
    · obtain ⟨l', sound, round, same⟩ := runTimer_sound h now m.running
      have next : step m (.runTimers now) = .ok (runTimer m now m.running) := by
        rw [step, if_pos enabled]
      exact ⟨⟨_, _, _, next, h.toActive, sound.toActive, by simpa [enabled] using round⟩,
        finish next sound same⟩
    · have next : step m (.runTimers now) = .ok m := by rw [step, if_neg enabled]
      exact ⟨⟨_, _, _, next, h.toActive, h.toActive, by simp [enabled]⟩, finish next h rfl⟩
  | callbackReturns =>
    cases running : m.running with
    | nil =>
      have next : step m .callbackReturns = .ok m := by rw [step, running]
      exact ⟨⟨_, _, _, next, h.toActive, h.toActive, by simp [running]⟩, finish next h rfl⟩
    | cons now outer =>
      obtain ⟨l', sound, round, same⟩ := runTimer_sound h now outer
      have next : step m .callbackReturns = .ok (runTimer m now outer) := by rw [step, running]
      exact ⟨⟨_, _, _, next, h.toActive, sound.toActive, by simpa [running] using round⟩,
        finish next sound same⟩

theorem fresh_consistent (enabled : Bool) (n : Nat) (expireTime : Timer → Int) :
    Consistent n (fresh enabled n expireTime) :=
  ⟨rfl, [], ⟨rfl, nodup_nil, .nil⟩, nofun, nofun⟩

/-- In every state of every run the active timers are sorted, those of one time in the order
of arming, and every event ends and does what is described. -/
theorem timers_in_order (enabled : Bool) (n : Nat) (expireTime : Timer → Int) (es : List Event)
    (valid : ∀ e ∈ es, e.Valid n) :
    Always step (fun m => ∃ l, Active m.clock l) (fresh enabled n expireTime) es ∧
      StepsMeet step Described (fresh enabled n expireTime) es := by
  have start := fresh_consistent enabled n expireTime
  generalize fresh enabled n expireTime = m at start
  induction es generalizing m with
  | nil =>
    obtain ⟨-, l, h⟩ := start
    exact ⟨⟨l, h.toActive⟩, trivial⟩
  | cons e es ih =>
    obtain ⟨described, m', ok, next⟩ := step_sound start (valid e mem_cons_self)
    have rest := ih (fun e mem => valid e (.tail _ mem)) m' next
    obtain ⟨-, l, h⟩ := start
    refine ⟨⟨⟨l, h.toActive⟩, fun t ht => ?_⟩, .cons ok described rest.2⟩
    obtain rfl : m' = t := Except.ok.inj (ok.symm.trans ht)
    exact rest.1

/-- Timer 0 is moved behind timer 1 by a callback, and timer 2 deleted before its turn. -/
theorem timers_in_order_reentrant :
    let es : List Event := [.modTimer 0 10, .modTimer 1 20, .modTimer 2 20, .runTimers 20,
      .modTimer 0 20, .delTimer 2, .callbackReturns, .callbackReturns, .callbackReturns]
    (∃ m, run step (fresh true 3 fun _ => 0) es = .ok m ∧ m.called = [0, 1, 0]) ∧
      StepsMeet step Described (fresh true 3 fun _ => 0) es :=
  ⟨⟨_, rfl, rfl⟩, (timers_in_order true 3 _ _ (by decide)).2⟩

end

end QemuStm32.Timers
