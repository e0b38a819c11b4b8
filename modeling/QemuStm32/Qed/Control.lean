import QemuStm32.Lib.Runs
import QemuStm32.Qed.Machine

/-!
# Which requests are under way

A request that is not complete has one callback pending, behind a file operation or as
the next call, or it is frozen in the queue of allocating writes. A queue that is not
plugged has an active request at its head. `Follows` says once what a callback can lead
to, whether file operations fail or not.
-/

namespace QemuStm32.Qed

open Runs List

/-- The callbacks of the timer up to the one that unplugs the queue. -/
def Callback.plugs : Callback → Bool
  | .clearNeedCheck | .flushAfterClearNeedCheck => true
  | .copyFromBackingFileWrite next | .copyFromBackingFile next | .writeHeaderRead next
  | .writeHeader next | .writeTable _ next => next.plugs
  | _ => false

theorem Callback.plugs_of_acb {cb : Callback} {acb : Nat} (of : cb.acb = some acb) :
    cb.plugs = false := by
  induction cb with
  | copyFromBackingFileWrite next ih | copyFromBackingFile next ih | writeHeaderRead next ih
  | writeHeader next ih | writeTable flush next ih => exact ih of
  | clearNeedCheck | flushAfterClearNeedCheck => cases of
  | _ => rfl

/-- An error the callback is called with becomes the result of the request. -/
def Callback.notices : Callback → Bool
  | .writePrefill _ | .writeFlushBeforeL2Update _ => false
  | .copyFromBackingFileWrite next | .copyFromBackingFile next | .writeHeaderRead next
  | .writeHeader next | .writeTable _ next => next.notices
  | _ => true

/-- The part of the state that says who may run. -/
structure Schedule where
  queue : List Nat
  plugged : Bool
  armed : Bool
  started : Nat
  completed : List (Nat × Int)
  frozen : List Nat

def State.schedule (s : State) : Schedule where
  queue := s.allocatingWriteReqs
  plugged := s.allocatingWriteReqsPlugged
  armed := s.needCheckTimer
  started := s.started
  completed := s.completed
  frozen := s.frozen

/-- Every request is running, frozen or completed, in one place only. A plugged queue, which
`timers` callbacks will unplug, is frozen as a whole, another one is frozen behind its active
head. -/
structure Control (c : Schedule) (running : List Nat) (timers : Nat) : Prop where
  placed : (running ++ c.frozen ++ c.completed.map Prod.fst).Perm (List.range c.started)
  timer : timers = c.plugged.toNat
  frozenAll : c.plugged = true → c.queue = c.frozen
  frozenBehind : c.plugged = false → c.queue = [] ∧ c.frozen = [] ∨
    ∃ acb ∈ running, c.queue = acb :: c.frozen
  armed : c.armed = true → c.queue = [] ∧ c.plugged = false

section
variable {c : Schedule} {running : List Nat} {timers acb : Nat}

theorem Control.perm (h : Control c running timers) {running' : List Nat}
    (p : running'.Perm running) : Control c running' timers where
  placed := ((p.append_right _).append_right _).trans h.placed
  timer := h.timer
  frozenAll := h.frozenAll
  frozenBehind := fun off => (h.frozenBehind off).imp_right fun ⟨acb, mem, queue⟩ =>
    ⟨acb, p.mem_iff.mpr mem, queue⟩
  armed := h.armed

theorem Control.nodup (h : Control c running timers) :
    (running ++ c.frozen ++ c.completed.map Prod.fst).Nodup :=
  h.placed.nodup_iff.mpr nodup_range

/-- A running request is in no other place. -/
theorem Control.alone (h : Control c (acb :: running) timers) :
    acb ∉ c.frozen ∧ acb ∉ c.completed.map Prod.fst := by
  have absent := (nodup_cons.mp h.nodup).1
  simp only [append_eq, mem_append, not_or] at absent
  exact ⟨absent.1.2, absent.2⟩

/-- A running request at the head of the queue has the rest of the queue frozen behind it. -/
theorem Control.behind (h : Control c (acb :: running) timers)
    (first : c.queue.head? = some acb) : c.plugged = false ∧ c.queue = acb :: c.frozen := by
  cases on : c.plugged with
  | true =>
    rw [h.frozenAll on] at first
    exact absurd (mem_of_head? first) h.alone.1
  | false =>
    rcases h.frozenBehind on with ⟨empty, -⟩ | ⟨other, -, queue⟩
    · rw [empty] at first
      cases first
    · rw [queue] at first
      obtain rfl : other = acb := by simpa using first
      exact ⟨rfl, queue⟩

theorem Control.none_frozen (h : Control c running timers) (off : c.plugged = false)
    (empty : c.queue = []) : c.frozen = [] := by
  rcases h.frozenBehind off with ⟨-, frozen⟩ | ⟨head, -, queue⟩
  · exact frozen
  · cases empty.symm.trans queue

section
variable (h : Control c (acb :: running) timers)
include h

/-- The head of the queue, if it is not `acb`, still runs when `acb` stops. -/
theorem Control.behind_other (off : c.plugged = false) (other : c.queue.head? ≠ some acb) :
    c.queue = [] ∧ c.frozen = [] ∨ ∃ head ∈ running, c.queue = head :: c.frozen := by
  refine (h.frozenBehind off).imp_right ?_
  rintro ⟨head, mem, queue⟩
  refine ⟨head, (mem_cons.mp mem).resolve_left ?_, queue⟩
  rintro rfl
  exact other (by rw [queue]; rfl)

/-- A running request becomes a completed one. -/
theorem Control.placed_complete (ret : Int) :
    (running ++ c.frozen ++ (c.completed ++ [(acb, ret)]).map Prod.fst).Perm
      (List.range c.started) := by
  refine List.Perm.trans ?_ h.placed
  rw [map_append, ← append_assoc]
  exact perm_append_singleton _ _

/-! ## What happens to the queue -/

theorem Control.complete (other : c.queue.head? ≠ some acb) (ret : Int) :
    Control { c with completed := c.completed ++ [(acb, ret)] } running timers where
  placed := h.placed_complete ret
  timer := h.timer
  frozenAll := h.frozenAll
  frozenBehind := fun off => h.behind_other off other
  armed := h.armed

/-- The head of the queue completes and nobody waits behind it. -/
theorem Control.complete_last
    (first : c.queue.head? = some acb) (alone : c.queue.tail = []) (ret : Int) (armed : Bool) :
    Control { c with
              queue := []
              completed := c.completed ++ [(acb, ret)]
              armed := armed } running timers := by
  obtain ⟨off, queue⟩ := h.behind first
  have frozen : c.frozen = [] := by rw [queue] at alone; exact alone
  exact { placed := h.placed_complete ret
          timer := h.timer
          frozenAll := fun _ => frozen.symm
          frozenBehind := fun _ => .inl ⟨rfl, frozen⟩
          armed := fun _ => ⟨rfl, off⟩ }

/-- The head of the queue completes and the next request goes on. -/
theorem Control.complete_restart (first : c.queue.head? = some acb) {next : Nat} {rest : List Nat}
    (more : c.queue.tail = next :: rest) (ret : Int) :
    Control { c with
              queue := next :: rest
              completed := c.completed ++ [(acb, ret)]
              frozen := c.frozen.tail } (next :: running) timers := by
  obtain ⟨off, queue⟩ := h.behind first
  have frozen : c.frozen = next :: rest := by rw [queue] at more; exact more
  refine { placed := ?_, timer := h.timer, frozenAll := fun on => ?_, frozenBehind := fun _ => ?_,
           armed := fun armed => ?_ }
  · refine List.Perm.trans (List.Perm.append_right _ ?_) (h.placed_complete ret)
    rw [frozen]
    exact perm_middle.symm
  · cases off.symm.trans on
  · rw [frozen]
    exact .inr ⟨next, mem_cons_self, rfl⟩
  · rw [(h.armed armed).1] at first
    cases first

/-- A request joins the queue behind others, or while it is plugged. -/
theorem Control.freeze
    (waiting : c.queue.head? ≠ some acb) (blocked : c.plugged = true ∨ c.queue ≠ []) :
    Control { c with
              queue := c.queue ++ [acb]
              frozen := c.frozen ++ [acb]
              armed := if c.queue = [] then false else c.armed } running timers := by
  refine { placed := ?_, timer := h.timer,
           frozenAll := fun on => congrArg (· ++ [acb]) (h.frozenAll on),
           frozenBehind := fun off => ?_, armed := fun armed => ?_ }
  · refine List.Perm.trans (List.Perm.append_right _ ?_) h.placed
    rw [← append_assoc]
    exact perm_append_singleton _ _
  · have some := blocked.resolve_left (by simpa using off)
    obtain ⟨head, mem, queue⟩ := (h.behind_other off waiting).resolve_left fun empty => some empty.1
    exact .inr ⟨head, mem, congrArg (· ++ [acb]) queue⟩
  · split at armed
    · cases armed
    · next some => exact absurd (h.armed armed).1 some

/-- A request finds the queue empty and becomes its head. -/
theorem Control.lead (off : c.plugged = false) (empty : c.queue = []) :
    Control { c with queue := [acb], armed := false } (acb :: running) timers := by
  refine { placed := h.placed, timer := h.timer, frozenAll := fun on => ?_,
           frozenBehind := fun _ => ?_, armed := nofun }
  · cases off.symm.trans on
  · rw [h.none_frozen off empty]
    exact .inr ⟨acb, mem_cons_self, rfl⟩

end

/-- The timer's last callback unplugs the queue. -/
theorem Control.unplug (h : Control c running (timers + 1)) :
    c.plugged = true ∧ (c.queue = [] → Control { c with plugged := false } running timers) ∧
      ∀ next rest, c.queue = next :: rest →
        Control { c with plugged := false, frozen := c.frozen.tail } (next :: running) timers := by
  have on : c.plugged = true := by
    cases off : c.plugged with
    | true => rfl
    | false => exact absurd h.timer (by rw [off]; exact Nat.succ_ne_zero timers)
  have none : timers = 0 := Nat.succ.inj (h.timer.trans (by rw [on]; rfl))
  have frozen := h.frozenAll on
  have disarmed : c.armed ≠ true := by
    intro armed
    rw [(h.armed armed).2] at on
    cases on
  refine ⟨on, fun empty => ?_, fun next rest queue => ?_⟩
  · exact { placed := h.placed
            timer := none
            frozenAll := nofun
            frozenBehind := fun _ => .inl ⟨empty, frozen.symm.trans empty⟩
            armed := fun armed => absurd armed disarmed }
  · have placed := h.placed
    rw [← frozen, queue] at placed ⊢
    exact { placed := List.Perm.trans (List.Perm.append_right _ perm_middle.symm) placed
            timer := none
            frozenAll := nofun
            frozenBehind := fun _ => .inr ⟨next, mem_cons_self, rfl⟩
            armed := fun armed => absurd armed disarmed }

/-- The timer fires: the queue is empty and gets plugged. -/
theorem Control.plug (h : Control c running timers) (armed : c.armed = true) :
    Control { c with plugged := true, armed := false } running (timers + 1) := by
  obtain ⟨empty, off⟩ := h.armed armed
  exact { placed := h.placed
          timer := by rw [h.timer, off]; rfl
          frozenAll := fun _ => empty.trans (h.none_frozen off empty).symm
          frozenBehind := nofun
          armed := nofun }

theorem Control.start (h : Control c running timers) :
    Control { c with started := c.started + 1 } (c.started :: running) timers where
  placed := by
    rw [range_succ]
    exact (h.placed.cons _).trans (perm_append_singleton _ _).symm
  timer := h.timer
  frozenAll := h.frozenAll
  frozenBehind := fun off => (h.frozenBehind off).imp_right fun ⟨head, mem, queue⟩ =>
    ⟨head, .tail _ mem, queue⟩
  armed := h.armed

end

/-! ## What follows a callback -/

/-- Changes to the data only. -/
structure Same (s t : State) : Prop where
  schedule : t.schedule = s.schedule
  ops : t.ops = s.ops
  call : t.call = s.call
  failed : t.failed = s.failed

/-- A request of the queue that may not go on. -/
def Blocked (s : State) (acb : Nat) : Prop :=
  s.allocatingWriteReqs.head? ≠ some acb ∨ s.allocatingWriteReqsPlugged = true

/-- An error of a request that its callback must not lose. -/
def Heeded (cb : Callback) (ret : Int) : Prop := ret < 0 ∧ cb.notices = true ∧ cb.acb ≠ none

/-- What a callback leads to. -/
inductive Follows (cb : Callback) (ret : Int) : State → State → Prop
  | data {s t u : State} (rest : Follows cb ret t u) (same : Same s t) : Follows cb ret s u
  | goes {s : State} {cb' : Callback} {r : Int} (of : cb'.acb = cb.acb)
      (plugs : cb'.plugs = cb.plugs) (told : Heeded cb ret → r = ret ∧ cb'.notices = true) :
      Follows cb ret s (s.goTo cb' r)
  | submits {s : State} {op : Op} (of : op.cb.acb = cb.acb) (plugs : op.cb.plugs = cb.plugs)
      (fine : ¬ Heeded cb ret) : Follows cb ret s (s.submit op)
  | fails {s : State} {cb' : Callback} {r : Int} (of : cb'.acb = cb.acb)
      (plugs : cb'.plugs = cb.plugs) (notices : cb'.notices = true) (negative : r < 0)
      (fine : ¬ Heeded cb ret) : Follows cb ret s ((s.fail cb').goTo cb' r)
  | completes {s : State} {acb : Nat} {r : Int} (of : cb.acb = some acb)
      (told : Heeded cb ret → r = ret) : Follows cb ret s (qedAioComplete s acb r)
  | waits {s : State} {acb : Nat} (of : cb.acb = some acb) (fine : ¬ Heeded cb ret)
      (blocked : Blocked (enqueue s acb) acb) :
      Follows cb ret s
        { enqueue s acb with frozen := (enqueue s acb).frozen ++ [acb] }
  | enters {s u : State} {acb : Nat} (of : cb.acb = some acb)
      (free : ¬ Blocked (enqueue s acb) acb) (rest : Follows cb ret (enqueue s acb) u) :
      Follows cb ret s u
  | idles {s u : State} {op : Op} (none : op.cb.acb = none) (plain : op.cb.plugs = false)
      (rest : Follows cb ret (s.submit op) u) : Follows cb ret s u
  | unplugs {s u : State} (none : cb.acb = none) (plugs : cb.plugs = true)
      (done : qedUnplugAllocatingWriteReqs s = .ok u) : Follows cb ret s u
  | ends {s : State} (none : cb.acb = none) (plain : cb.plugs = false) : Follows cb ret s s

variable {op : Op} {pos len i : Nat}

section
variable {s s' : State} {cb cb' : Callback} {acb : Nat} {im : Image} {length ret r : Int}

theorem not_heeded (told : Heeded cb ret → r = ret) (nonnegative : 0 ≤ r) : ¬ Heeded cb ret := by
  intro heeded
  have := told heeded
  have := heeded.1
  omega

/-- The callbacks of a request go on to one another. -/
theorem Follows.goes_of (of : cb.acb = some acb) (of' : cb'.acb = some acb)
    (told : Heeded cb ret → r = ret ∧ cb'.notices = true) : Follows cb ret s (s.goTo cb' r) :=
  .goes (of'.trans of.symm)
    ((Callback.plugs_of_acb of').trans (Callback.plugs_of_acb of).symm) told

theorem Follows.submits_of (of : cb.acb = some acb) (of' : op.cb.acb = some acb)
    (fine : ¬ Heeded cb ret) : Follows cb ret s (s.submit op) :=
  .submits (of'.trans of.symm)
    ((Callback.plugs_of_acb of').trans (Callback.plugs_of_acb of).symm) fine

/-! ### Copying -/

theorem follows_readBackingFile (cb cb' : Callback) (of : cb'.acb = cb.acb)
    (plugs : cb'.plugs = cb.plugs) (notices : cb'.notices = true) (fine : ¬ Heeded cb ret)
    (pos : Nat) : Follows cb ret s (qedReadBackingFile im s length pos cb') := by
  unfold qedReadBackingFile
  split
  · next failed => exact .fails of plugs notices failed.2 fine
  · generalize (if im.backing = true then length else 0) = backingLength
    dsimp only
    split
    · exact .goes of plugs (absurd · fine)
    · exact .submits of plugs fine

theorem follows_copyFromBackingFile (cb cb' : Callback) (of : cb'.acb = cb.acb)
    (plugs : cb'.plugs = cb.plugs) (notices : cb'.notices = true) (fine : ¬ Heeded cb ret)
    (pos len : Nat) : Follows cb ret s (qedCopyFromBackingFile im s length pos len cb') := by
  unfold qedCopyFromBackingFile
  split
  · exact .goes of plugs (absurd · fine)
  · exact follows_readBackingFile cb (.copyFromBackingFileWrite cb') of plugs notices fine pos

/-! ### Reads and writes -/

section
variable (of : cb.acb = some acb)
include of

theorem follows_writeMain (told : Heeded cb ret → r = ret) :
    Follows cb ret s (qedAioWriteMain im s acb r) := by
  unfold qedAioWriteMain
  split
  · exact .completes of told
  · have fine := not_heeded told (by omega)
    split
    · exact .submits_of of rfl fine
    · split <;> exact .submits_of of rfl fine

/-- The request joins the queue; it goes on if it is the head of a queue that is not plugged. -/
theorem follows_writeAlloc (fine : ¬ Heeded cb ret) (len : Nat) :
    Follows cb ret s (qedAioWriteAlloc im s acb len) := by
  unfold qedAioWriteAlloc
  dsimp only
  split
  · next blocked => exact .waits of fine blocked
  next free =>
  refine .enters of free ?_
  unfold startAllocation
  dsimp only
  split
  · exact .data (.submits_of of rfl fine) ⟨rfl, rfl, rfl, rfl⟩
  · exact .data (.goes_of of rfl (absurd · fine)) ⟨rfl, rfl, rfl, rfl⟩

theorem follows_ioFn (told : Heeded cb ret → r = ret) (offset len : Nat) :
    Follows cb ret s (ioFn im s length acb r offset len) := by
  unfold ioFn
  split
  · unfold qedAioWriteData
    refine .data (t := s.setAcb acb { s.acbs acb with findClusterRet := r }) ?_ ⟨rfl, rfl, rfl, rfl⟩
    split
    · next found =>
      exact .data (follows_writeMain of fun heeded => found.symm.trans (told heeded))
        ⟨rfl, rfl, rfl, rfl⟩
    · split
      · next result =>
        refine follows_writeAlloc of (not_heeded told ?_) len
        rcases result with rfl | rfl | rfl <;> decide
      · exact .completes of told
  · unfold qedAioReadData
    split
    · exact .completes of told
    have fine := not_heeded told (by omega)
    refine .data (t := s.setAcb acb { s.acbs acb with curSize := len }) ?_ ⟨rfl, rfl, rfl, rfl⟩
    split
    · exact .goes_of of rfl (absurd · fine)
    · split
      · exact follows_readBackingFile cb (.nextIo acb) of.symm
          (Callback.plugs_of_acb of).symm rfl fine _
      · exact .submits_of of rfl fine

theorem follows_nextIo (done : qedAioNextIo im s length acb ret = .ok s') :
    Follows cb ret s s' := by
  unfold qedAioNextIo at done
  split at done
  · cases done
    exact .completes of fun _ => rfl
  have zero : ret = 0 := by omega
  subst zero
  refine .data (t := s.setAcb acb { s.acbs acb with
    curPos := (s.acbs acb).curPos + (s.acbs acb).curSize, curSize := 0 }) ?_ ⟨rfl, rfl, rfl, rfl⟩
  have fine : ¬ Heeded cb 0 := not_heeded (fun _ => rfl) (Int.le_refl 0)
  dsimp only at done
  split at done
  · cases done
    exact .completes of fun _ => rfl
  unfold qedFindCluster qedReadL2Table at done
  dsimp only at done
  split at done
  · split at done
    · cases done
      exact follows_ioFn of (absurd · fine) _ _
    split at done
    · cases done
      exact follows_ioFn of (absurd · fine) _ _
    · split at done
      · cases done
        exact .data (.goes_of of rfl (absurd · fine)) ⟨rfl, rfl, rfl, rfl⟩
      · cases done
        exact .data (.submits_of of rfl fine) ⟨rfl, rfl, rfl, rfl⟩
  · cases done

theorem follows_findClusterCb (done : qedFindClusterCb im s length acb pos len ret = .ok s') :
    Follows cb ret s s' := by
  unfold qedFindClusterCb at done
  split at done
  · cases done
    exact follows_ioFn of (fun _ => rfl) _ _
  · split at done
    · cases done
    · cases done
      exact follows_ioFn of (absurd · (not_heeded (fun _ => rfl) (by omega))) _ _

omit of in
theorem commit_same {t : State} (same : Same s t) (entry : Nat) (value : Acb) :
    Same s ((qedCommitL2CacheEntry t entry).setAcb acb value) := by
  unfold qedCommitL2CacheEntry
  split <;> exact ⟨same.schedule, same.ops, same.call, same.failed⟩

theorem follows_readL2TableCb {offset : Nat}
    (done : qedReadL2TableCb s acb offset pos len ret = .ok s') : Follows cb ret s s' := by
  have goes {t : State} : Follows cb ret t (t.goTo (.findCluster acb pos len) ret) :=
    .goes_of of rfl fun _ => ⟨rfl, rfl⟩
  unfold qedReadL2TableCb at done
  split at done
  · cases done
    exact .data goes ⟨rfl, rfl, rfl, rfl⟩
  split at done
  · cases done
  next entry _ =>
  dsimp only at done
  split at done
  · cases done
  · cases done
    exact .data goes (commit_same (by exact ⟨rfl, rfl, rfl, rfl⟩) entry _)

theorem follows_commitL2Update (done : qedCommitL2Update s acb ret = .ok s') :
    Follows cb ret s s' := by
  unfold qedCommitL2Update at done
  split at done
  · cases done
  next entry _ =>
  dsimp only at done
  split at done
  · cases done
  · cases done
    exact .data (.goes_of of rfl fun _ => ⟨rfl, rfl⟩) (commit_same ⟨rfl, rfl, rfl, rfl⟩ entry _)

theorem follows_writeL1Update (done : qedAioWriteL1Update im s acb ret = .ok s') :
    Follows cb ret s s' := by
  unfold qedAioWriteL1Update at done
  split at done
  · cases done
    exact .completes of fun _ => rfl
  split at done
  · cases done
  · dsimp only at done
    split at done
    · cases done
      exact .data (.submits_of of rfl (not_heeded (fun _ => rfl) (by omega))) ⟨rfl, rfl, rfl, rfl⟩
    · cases done

omit of in
/-- Linking clusters changes a cache entry only. -/
theorem linkClusters_same {entry : Nat} (done : linkClusters im s acb entry = .ok s') :
    Same s s' := by
  unfold linkClusters at done
  dsimp only at done
  split at done
  · cases done
    exact ⟨rfl, rfl, rfl, rfl⟩
  · cases done

theorem follows_writeL2Update (done : qedAioWriteL2Update im s acb ret = .ok s') :
    Follows cb ret s s' := by
  unfold qedAioWriteL2Update at done
  split at done
  · cases done
    exact .completes of fun _ => rfl
  have fine : ¬ Heeded cb ret := not_heeded (fun _ => rfl) (by omega)
  split at done
  · obtain ⟨linked, link, done⟩ := bind_ok_iff.mp done
    cases done
    exact .data (.data (.submits_of of rfl fine) (linkClusters_same link)) ⟨rfl, rfl, rfl, rfl⟩
  · split at done
    · cases done
    · obtain ⟨linked, link, done⟩ := bind_ok_iff.mp done
      cases done
      exact .data (.submits_of of rfl fine) (linkClusters_same link)

end

/-! ### All callbacks -/

theorem follows_invoke (done : invoke im s length ret cb = .ok s') : Follows cb ret s s' := by
  have wrapped {next : Callback} of plugs
      (notices : next.notices = cb.notices) : Follows cb ret s (s.goTo next ret) :=
    .goes of plugs fun heeded => ⟨rfl, notices.trans heeded.2.1⟩
  have fine (zero : ¬ ret ≠ 0) : ¬ Heeded cb ret := not_heeded (fun _ => rfl) (by omega)
  cases cb with
  | nextIo acb => exact follows_nextIo rfl done
  | writePrefill acb =>
    cases done
    exact follows_copyFromBackingFile (.writePrefill acb) (.writePostfill acb) rfl rfl rfl
      (fun heeded => nomatch heeded.2.1) _ _
  | writePostfill acb =>
    cases done
    unfold qedAioWritePostfill
    split
    · exact .completes rfl fun _ => rfl
    · next zero =>
      exact follows_copyFromBackingFile (.writePostfill acb) (.writeMain acb) rfl rfl rfl
        (fine zero) _ _
  | writeMain acb =>
    cases done
    exact follows_writeMain rfl fun _ => rfl
  | writeFlushBeforeL2Update acb =>
    cases done
    exact .submits rfl rfl fun heeded => nomatch heeded.2.1
  | writeL2Update acb => exact follows_writeL2Update rfl done
  | writeL1Update acb => exact follows_writeL1Update rfl done
  | commitL2Update acb => exact follows_commitL2Update rfl done
  | findCluster acb pos len => exact follows_findClusterCb rfl done
  | readL2Table acb offset pos len => exact follows_readL2TableCb rfl done
  | copyFromBackingFileWrite next =>
    cases done
    unfold qedCopyFromBackingFileWrite
    split
    · exact wrapped rfl rfl rfl
    · next zero => exact .submits rfl rfl (fine zero)
  | copyFromBackingFile next | writeHeader next =>
    cases done
    exact wrapped rfl rfl rfl
  | writeHeaderRead next =>
    cases done
    unfold qedWriteHeaderReadCb
    split
    · exact wrapped rfl rfl rfl
    · next zero => exact .submits rfl rfl (fine zero)
  | writeTable flush next =>
    cases done
    unfold qedWriteTableCb
    split
    · exact wrapped rfl rfl rfl
    · next zero =>
      split
      · exact .submits rfl rfl (fine zero)
      · exact wrapped rfl rfl rfl
  | clearNeedCheck =>
    simp only [invoke, qedClearNeedCheck] at done
    split at done
    · exact .unplugs rfl rfl done
    · cases done
      exact .data (.submits rfl rfl fun heeded => heeded.2.2 rfl) ⟨rfl, rfl, rfl, rfl⟩
  | flushAfterClearNeedCheck => exact .idles rfl rfl (.unplugs rfl rfl done)
  | finishClearNeedCheck =>
    cases done
    exact .ends rfl rfl

end

/-! ## Order -/

/-- The callbacks that will be called: the pending call and those of the operations in flight. -/
def State.threads (s : State) : List Callback :=
  (s.call.map Prod.fst).toList ++ s.ops.map Op.cb

/-- The requests of the callbacks are running, and the timer has its callback. -/
def InOrder (c : Schedule) (threads : List Callback) : Prop :=
  Control c (threads.filterMap Callback.acb) (threads.countP Callback.plugs)

/-- Every callback that will be called is in order. -/
def Ordered (s : State) : Prop := InOrder s.schedule s.threads

section
variable {s s' : State} {c : Schedule} {threads : List Callback} {cb cb' : Callback} {acb : Nat}
variable {im : Image} {length ret : Int}

theorem InOrder.perm (h : InOrder c threads) {threads' : List Callback}
    (p : threads'.Perm threads) : InOrder c threads' := by
  unfold InOrder
  rw [p.countP_eq]
  exact Control.perm h (p.filterMap _)

theorem inOrder_cons_some (of : cb.acb = some acb) : InOrder c (cb :: threads) ↔
    Control c (acb :: threads.filterMap Callback.acb) (threads.countP Callback.plugs) := by
  rw [InOrder, filterMap_cons_some of, countP_cons_of_neg]
  rw [Callback.plugs_of_acb of]
  decide

theorem inOrder_cons_none (none : cb.acb = none) (plain : cb.plugs = false) :
    InOrder c (cb :: threads) ↔ InOrder c threads := by
  rw [InOrder, filterMap_cons_none none, countP_cons_of_neg (by simp [plain])]
  rfl

/-- A callback goes on to another one of the same request. -/
theorem InOrder.move (h : InOrder c (cb :: threads)) (of : cb'.acb = cb.acb)
    (plugs : cb'.plugs = cb.plugs) : InOrder c (cb' :: threads) := by
  unfold InOrder at h ⊢
  rw [filterMap_cons, of, countP_cons, plugs]
  rw [countP_cons] at h
  exact h

section
variable (call : s.call = none)
include call

/-- The callback is over and nothing follows. -/
theorem ordered_of (h : InOrder s.schedule (s.ops.map Op.cb)) : Ordered s := by
  unfold Ordered State.threads
  rw [call]
  exact h

theorem ordered_submit (h : InOrder s.schedule (op.cb :: s.ops.map Op.cb)) :
    Ordered (s.submit op) := by
  refine ordered_of call (h.perm ?_)
  simp only [State.submit, map_append]
  exact perm_append_singleton _ _

theorem ordered_complete (of : cb.acb = some acb) (h : InOrder s.schedule (cb :: s.ops.map Op.cb))
    (ret : Int) : Ordered (qedAioComplete s acb ret) := by
  have control := (inOrder_cons_some of).mp h
  unfold qedAioComplete
  dsimp only
  split
  · next first =>
    cases tail : s.allocatingWriteReqs.tail with
    | nil =>
      dsimp only
      split
      · exact ordered_of call (control.complete_last first tail ret true)
      · exact ordered_of call (control.complete_last first tail ret s.needCheckTimer)
    | cons next rest => exact control.complete_restart first tail ret
  · next other => exact ordered_of call (control.complete other ret)

theorem ordered_unplug (none : cb.acb = none) (plugs : cb.plugs = true)
    (h : InOrder s.schedule (cb :: s.ops.map Op.cb))
    (done : qedUnplugAllocatingWriteReqs s = .ok s') : Ordered s' := by
  unfold InOrder at h
  rw [filterMap_cons_none none, countP_cons_of_pos plugs] at h
  obtain ⟨on, empty, more⟩ := h.unplug
  have on : s.allocatingWriteReqsPlugged = true := on
  unfold qedUnplugAllocatingWriteReqs restartFirst at done
  rw [if_pos on] at done
  cases done
  split
  · next queue => exact ordered_of call (empty queue)
  · next queue => exact more _ _ queue

end

theorem enqueue_frame (s : State) (acb : Nat) :
    (enqueue s acb).ops = s.ops ∧ (enqueue s acb).call = s.call ∧
      (enqueue s acb).completed = s.completed ∧ (enqueue s acb).failed = s.failed := by
  unfold enqueue
  dsimp only
  split <;> split <;> exact ⟨rfl, rfl, rfl, rfl⟩

/-- A request that joins the queue waits there, or is at its head. -/
theorem control_enqueue {running : List Nat} {timers : Nat}
    (h : Control s.schedule (acb :: running) timers) :
    (Blocked (enqueue s acb) acb →
      Control { (enqueue s acb).schedule with frozen := (enqueue s acb).frozen ++ [acb] }
        running timers) ∧
    (¬ Blocked (enqueue s acb) acb → Control (enqueue s acb).schedule (acb :: running) timers) := by
  by_cases first : s.allocatingWriteReqs.head? = some acb
  · have off : s.allocatingWriteReqsPlugged = false := (h.behind first).1
    have enqueued : enqueue s acb = s := by
      have some : s.allocatingWriteReqs ≠ [] := fun empty => by rw [empty] at first; cases first
      rw [enqueue, if_neg some, if_pos first]
    rw [enqueued]
    exact ⟨fun blocked => absurd blocked (by simp [Blocked, first, off]), fun _ => h⟩
  by_cases empty : s.allocatingWriteReqs = []
  · have enqueued : enqueue s acb =
        { s with needCheckTimer := false, allocatingWriteReqs := [acb] } := by
      simp [enqueue, empty]
    rw [enqueued]
    refine ⟨fun blocked => ?_, fun free => h.lead ?_ empty⟩
    · have frozen := h.freeze first (.inl (blocked.resolve_left (by simp)))
      rw [show s.schedule.queue = [] from empty] at frozen
      exact frozen
    · simpa [Blocked, State.schedule] using free
  · have enqueued : enqueue s acb =
        { s with allocatingWriteReqs := s.allocatingWriteReqs ++ [acb] } := by
      rw [enqueue, if_neg empty, if_neg first]
    have frozen := h.freeze first (.inr empty)
    rw [if_neg (show s.schedule.queue ≠ [] from empty)] at frozen
    rw [enqueued]
    refine ⟨fun _ => frozen, fun free => absurd (.inl ?_) free⟩
    rw [head?_append_of_ne_nil _ empty]
    exact first

/-- Whatever a callback leads to is in order. -/
theorem Follows.ordered (h : Follows cb ret s s') (call : s.call = none)
    (order : InOrder s.schedule (cb :: s.ops.map Op.cb)) : Ordered s' := by
  induction h with
  | data rest same ih =>
    exact ih (same.call.trans call) (by rw [same.schedule, same.ops]; exact order)
  | goes of plugs | fails of plugs => exact order.move of plugs
  | submits of plugs => exact ordered_submit call (order.move of plugs)
  | completes of => exact ordered_complete call of order _
  | @waits s acb of fine blocked =>
    obtain ⟨ops, calls, -⟩ := enqueue_frame s acb
    refine ordered_of (calls.trans call) ?_
    have frozen := (control_enqueue ((inOrder_cons_some of).mp order)).1 blocked
    rw [← ops] at frozen
    exact frozen
  | @enters s u acb of free rest ih =>
    obtain ⟨ops, calls, -⟩ := enqueue_frame s acb
    refine ih (calls.trans call) ?_
    rw [ops]
    exact (inOrder_cons_some of).mpr ((control_enqueue ((inOrder_cons_some of).mp order)).2 free)
  | @idles s u op none plain rest ih =>
    refine ih call (((inOrder_cons_none none plain).mpr order).perm ?_)
    simp only [State.submit, map_append]
    exact perm_append_singleton _ (_ :: _)
  | unplugs none plugs done => exact ordered_unplug call none plugs order done
  | ends none plain => exact ordered_of call ((inOrder_cons_none none plain).mp order)

theorem perform_cb (op : Op) (file : Place → Table) : (op.perform file).1.cb = op.cb := by
  unfold Op.perform
  split <;> rfl

/-- Taking effect changes no callback. -/
theorem map_cb_set_perform (at_i : s.ops[i]? = some op) :
    (s.ops.set i (op.perform s.file).1).map Op.cb = s.ops.map Op.cb := by
  obtain ⟨bound, rfl⟩ := List.getElem?_eq_some_iff.mp at_i
  have same : (s.ops.map Op.cb)[i]? = some s.ops[i].cb := by
    rw [getElem?_map, at_i]
    rfl
  obtain ⟨mapped, eq⟩ := List.getElem?_eq_some_iff.mp same
  rw [map_set, perform_cb, ← eq]
  exact set_getElem_self mapped

/-- An operation that ends leaves its callback to be called. -/
theorem cb_cons_eraseIdx {ops : List Op} (at_i : ops[i]? = some op) :
    (op.cb :: (ops.eraseIdx i).map Op.cb).Perm (ops.map Op.cb) := by
  obtain ⟨bound, rfl⟩ := List.getElem?_eq_some_iff.mp at_i
  exact (getElem_cons_eraseIdx_perm bound).map Op.cb

theorem inOrder_idle (h : Ordered s) (idle : s.call = none) :
    InOrder s.schedule (s.ops.map Op.cb) := by
  unfold Ordered State.threads at h
  rw [idle] at h
  exact h

theorem inOrder_called (h : Ordered s) (pending : s.call = some (cb, ret)) :
    InOrder s.schedule (cb :: s.ops.map Op.cb) := by
  unfold Ordered State.threads at h
  rw [pending] at h
  exact h

theorem step_ordered (h : Ordered s) {e : Event} (stepped : step im s e = .ok s') : Ordered s' := by
  cases e with
  | start isWrite sectorNum nbSectors =>
    simp only [step] at stepped
    split at stepped
    · next possible =>
      cases stepped
      exact (inOrder_idle h possible.1).start
    · cases stepped
      exact h
  | tick length =>
    simp only [step] at stepped
    split at stepped
    · next pending =>
      have order := inOrder_called h pending
      exact (follows_invoke stepped).ordered rfl order
    · cases stepped
      exact h
  | perform i =>
    simp only [step] at stepped
    split at stepped
    · next op at_i =>
      cases stepped
      have same := map_cb_set_perform at_i
      unfold Ordered State.threads at h ⊢
      rw [same]
      exact h
    · cases stepped
      exact h
  | finish i errno =>
    simp only [step] at stepped
    split at stepped
    · next op at_i =>
      split at stepped
      · next possible =>
        cases stepped
        have called := (inOrder_idle h possible.1).perm (cb_cons_eraseIdx at_i)
        unfold finishOp Op.deliver
        split
        · split <;> exact called
        · exact called
      · cases stepped
        exact h
    · cases stepped
      exact h
  | timer =>
    simp only [step] at stepped
    split at stepped
    · next possible =>
      have control : Control _ _ _ := inOrder_idle h possible.1
      have plugged := control.plug possible.2
      obtain ⟨empty, off⟩ := control.armed possible.2
      have empty : s.allocatingWriteReqs = [] := empty
      have off : s.allocatingWriteReqsPlugged = false := off
      simp only [qedNeedCheckTimerCb, qedPlugAllocatingWriteReqs, if_pos empty, off] at stepped
      cases stepped
      refine ordered_submit (by exact possible.1) ?_
      unfold InOrder
      rw [countP_cons_of_pos rfl]
      exact plugged
    · cases stepped
      exact h

end

theorem opened_ordered (fileSize : Nat) (needCheck : Bool) (file : Place → Table) :
    Ordered (opened fileSize needCheck file) where
  placed := .refl _
  timer := rfl
  frozenAll := nofun
  frozenBehind := fun _ => .inl ⟨rfl, rfl⟩
  armed := nofun

end QemuStm32.Qed
